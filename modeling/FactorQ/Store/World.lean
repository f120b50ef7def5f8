/-
# `FactorQ.Store.World` — processes over one store

A process is idle, in one of the machines of the previous modules, or crashed
for good.  The world is the store and the processes; an action picks a process
and lets it start a call, make the next index or content call of the one it is
in, see that call fail, or crash.  The clock advances by an action of its own.
Every interleaving is a list of actions.
-/
import FactorQ.Lib.Interleave
import FactorQ.Store.Audit

namespace FactorQ.Store

open Lib

/-- A call a process can make. -/
inductive Call (Cid : Type) where
  | put (name : Name) (content : Bytes)
  | bind (name : Name) (cid : Cid)
  | unbind (name : Name)
  | collect
  | audit (grace : Nat)
deriving DecidableEq

/-- What a call returned. -/
inductive Outcome (Cid : Type) where
  | returned (result : Returned Cid)
  | collected (result : Except (StoreError Cid) Reclaimed)
  | audited (result : Except (StoreError Cid) (AuditReport Cid))

inductive Proc (Cid : Type) where
  | idle (last : Option (Outcome Cid))
  | writer (pc : Writer Cid)
  | gc (pc : Gc Cid)
  | audit (pc : Audit Cid)
  | crashed

/-- What the scheduler can do. -/
inductive Action (Cid ι : Type) where
  | start (i : ι) (call : Call Cid)
  | step (i : ι)
  | fail (i : ι) (error : StoreError Cid)
  | crash (i : ι)
  | tick (dt : Nat)

namespace Proc

variable {Cid : Type}

def ofWriter : Writer Cid ⊕ Returned Cid → Proc Cid
  | .inl pc => writer pc
  | .inr r => idle (some (.returned r))

def ofGc : Gc Cid ⊕ Reclaimed → Proc Cid
  | .inl pc => gc pc
  | .inr r => idle (some (.collected (.ok r)))

def ofAudit : Audit Cid ⊕ AuditReport Cid → Proc Cid
  | .inl pc => audit pc
  | .inr r => idle (some (.audited (.ok r)))

/-- A process that is not in a call and has not crashed. -/
def ready : Proc Cid → Bool
  | idle _ => true
  | _ => false

variable [LinearOrder Cid]

/-- The first point of a call. -/
def begin (H : Hasher Cid) : Call Cid → Proc Cid
  | .put name content => writer (Writer.put H name content)
  | .bind name cid => writer (.aliasRead name cid)
  | .unbind name => writer (.unbind name)
  | .collect => gc .claimableObjects
  | .audit grace => audit (.start grace)

/-- The next index or content call of the process. -/
def step (H : Hasher Cid) (s : State Cid) : Proc Cid → State Cid × Proc Cid
  | writer pc => ((pc.step H s).1, ofWriter (pc.step H s).2)
  | gc pc => ((pc.step s).1, ofGc (pc.step s).2)
  | audit pc => ((pc.step s).1, ofAudit (pc.step s).2)
  | idle last => (s, idle last)
  | crashed => (s, crashed)

/-- That call returns an error instead. -/
def fail (H : Hasher Cid) (e : StoreError Cid) : Proc Cid → Proc Cid
  | writer pc => ofWriter (pc.fail H e)
  | gc _ => idle (some (.collected (.error e)))
  | audit _ => idle (some (.audited (.error e)))
  | idle last => idle last
  | crashed => crashed

/-- The process stops forever. -/
def crash : Proc Cid → Proc Cid
  | idle last => idle last
  | _ => crashed

end Proc

/-- A store and the processes over it. -/
abbrev World (Cid ι : Type) := Crew (State Cid) (Proc Cid) ι

namespace World

variable {Cid ι : Type}

def init : World Cid ι := ⟨State.init, fun _ => .idle none⟩

variable [LinearOrder Cid] [DecidableEq ι]

/-- One action; a call is started only by a process that is ready. -/
def act (H : Hasher Cid) (w : World Cid ι) : Action Cid ι → World Cid ι
  | .start i call =>
    if (w.procs i).ready then w.put i w.shared (Proc.begin H call) else w
  | .step i => w.put i ((w.procs i).step H w.shared).1 ((w.procs i).step H w.shared).2
  | .fail i e => w.put i w.shared ((w.procs i).fail H e)
  | .crash i => w.put i w.shared (w.procs i).crash
  | .tick dt => { w with shared := { w.shared with clock := w.shared.clock + dt } }

/-- The world after a schedule. -/
def run (H : Hasher Cid) (w : World Cid ι) (actions : List (Action Cid ι)) : World Cid ι :=
  actions.foldl (act H) w

end World

end FactorQ.Store
