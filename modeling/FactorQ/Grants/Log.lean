/-
# `FactorQ.Grants.Log` — the durable log and its projection

The log assigns the ids: a grant's id is the sequence number of its row.  Beside the
log stand the projection tables, written in the transaction of every append: the
recorded grants with a liveness flag each, the revoked ids, and the number of the last
event applied.  Liveness is recomputed over the whole table whenever something changes.

A transaction is one function here, from the tables before to the tables after; one
that fails leaves the tables as they were.  Columns the modelled functions do not read
(`occurred_at`, `published`) are left out.
-/
import FactorQ.Grants.Model

namespace FactorQ.Grants

open Lib

/-! ## Columns -/

/-- What is done with verb sets at the border of the database: `serde_json` writes a set
as a text and reads back what it wrote. -/
structure VerbCodec where
  encode : Finset Verb → String
  decode : String → Option (Finset Verb)
  decode_encode : ∀ verbs, decode (encode verbs) = some verbs

/-- The text of a verb set, such as `["read","grant"]`. -/
def encodeVerbs (verbs : Finset Verb) : String :=
  "[" ++ ",".intercalate ((Verb.all.filter (· ∈ verbs)).map fun v => "\"" ++ v.asStr ++ "\"") ++ "]"

def jsonVerbs : VerbCodec where
  encode := encodeVerbs
  decode := fun json => (Verb.all.sublists.map List.toFinset).find? fun verbs => encodeVerbs verbs = json
  decode_encode := by decide +kernel

/-- `id as i64`. -/
def asI64 (id : GrantId) : Int := if id.val < 2 ^ 63 then id.val else id.val - 2 ^ 64

/-- `seq as u64`. -/
def asU64 (i : Int) : GrantId := Fin.ofNat (2 ^ 64) (i % 2 ^ 64).toNat

inductive StoreError where
  | corrupt (message : String)
  | database (message : String)
deriving DecidableEq

/-- Both kinds are guarded by a `CHECK` of the schema. -/
inductive EventKind where
  | granted
  | revoked
deriving DecidableEq

inductive ScopeKind where
  | name
  | nameSpace
deriving DecidableEq

namespace Scope

def kind : Scope → ScopeKind
  | name _ => .name
  | nameSpace _ => .nameSpace

def value : Scope → String
  | name v | nameSpace v => v

def fromKindValue : ScopeKind → String → Scope
  | .name, v => name v
  | .nameSpace, v => nameSpace v

@[simp] theorem fromKindValue_kind_value (s : Scope) : fromKindValue s.kind s.value = s := by
  cases s <;> rfl

end Scope

def Grantor.agentColumn : Grantor → Option String
  | operator => none
  | agent id => some id

def Grantor.ofColumn : Option String → Grantor
  | none => .operator
  | some id => .agent id

@[simp] theorem Grantor.ofColumn_agentColumn (g : Grantor) : Grantor.ofColumn g.agentColumn = g := by
  cases g <;> rfl

def Principal.column : Principal → String
  | agent id => id

/-! ## Tables -/

/-- A row of `grant_events`. -/
structure EventRow where
  seq : Int
  kind : EventKind
  targetId : Option Int
  grantorAgent : Option String
  granteeAgent : Option String
  verbs : Option String
  scopeKind : Option ScopeKind
  scopeValue : Option String

/-- A row of `projected_grants`, without its id. -/
structure ProjectedGrant where
  grantorAgent : Option String
  granteeAgent : String
  verbs : String
  scopeKind : ScopeKind
  scopeValue : String
  live : Bool

/-- The columns of a grant in the log. -/
def EventRow.ofGranted (codec : VerbCodec) (seq : Int) (grant : GrantRow) : EventRow :=
  ⟨seq, .granted, none, grant.grantor.agentColumn, some grant.grantee.column, some (codec.encode grant.verbs),
    some grant.scope.kind, some grant.scope.value⟩

/-- The columns of a revocation in the log. -/
def EventRow.ofRevoked (seq : Int) (target : GrantId) : EventRow :=
  ⟨seq, .revoked, some (asI64 target), none, none, none, none, none⟩

/-- The columns of a grant in the projection. -/
def ProjectedGrant.ofGrant (codec : VerbCodec) (grant : GrantRow) (live : Bool) : ProjectedGrant :=
  ⟨grant.grantor.agentColumn, grant.grantee.column, codec.encode grant.verbs, grant.scope.kind, grant.scope.value,
    live⟩

structure GrantLog where
  events : List EventRow
  projected : Table Int ProjectedGrant
  revocations : Finset Int
  cursor : Int

namespace EventRow

def corrupt (what : String) (seq : Int) : StoreError :=
  .corrupt ("grant_events row " ++ toString seq ++ ": missing/invalid " ++ what)

def intoEvent (codec : VerbCodec) (row : EventRow) : Except StoreError GrantEvent :=
  match row.kind with
  | .granted => do
      let grantee ← (row.granteeAgent.map Principal.agent).elim (.error (corrupt "grantee" row.seq)) .ok
      let verbs ← row.verbs.elim (.error (corrupt "verbs" row.seq)) .ok
      let verbs ← (codec.decode verbs).elim (.error (corrupt "verbs" row.seq)) .ok
      let value ← row.scopeValue.elim (.error (corrupt "scope" row.seq)) .ok
      let kind ← row.scopeKind.elim (.error (corrupt "scope kind" row.seq)) .ok
      return .granted (asU64 row.seq)
        ⟨Grantor.ofColumn row.grantorAgent, grantee, verbs, Scope.fromKindValue kind value⟩
  | .revoked => do
      let target ← row.targetId.elim (.error (corrupt "target" row.seq)) .ok
      return .revoked (asU64 target)

/-- What `INSERT OR IGNORE … SELECT` makes of a grant's row: nothing, if a column that
must be there is not. -/
def project (row : EventRow) : Option ProjectedGrant := do
  return ⟨row.grantorAgent, ← row.granteeAgent, ← row.verbs, ← row.scopeKind, ← row.scopeValue, false⟩

end EventRow

/-! ## Liveness -/

/-- A row of the projection as `recompute_liveness` reads it. -/
structure Decoded where
  id : Int
  grantorAgent : Option String
  granteeAgent : String
  verbs : Finset Verb
  scope : Scope
  wasLive : Bool
deriving DecidableEq

def decodeVerbs (codec : VerbCodec) (json : String) (id : Int) : Except StoreError (Finset Verb) :=
  (codec.decode json).elim (.error (.corrupt ("projected grant " ++ toString id ++ ": invalid verbs"))) .ok

def decode (codec : VerbCodec) (r : Int × ProjectedGrant) : Except StoreError Decoded := do
  let verbs ← decodeVerbs codec r.2.verbs r.1
  return ⟨r.1, r.2.grantorAgent, r.2.granteeAgent, verbs, Scope.fromKindValue r.2.scopeKind r.2.scopeValue, r.2.live⟩

/-- The grant is live, given the earlier rows that are. -/
def Decoded.accepts (revoked : Finset Int) (earlier : List Decoded) (g : Decoded) : Bool :=
  !(g.id ∈ revoked) &&
    match g.grantorAgent with
    | none => true
    | some delegator =>
      earlier.any fun sup => sup.granteeAgent = delegator && supports sup.verbs sup.scope g.verbs g.scope

/-- `SELECT … ORDER BY id`. -/
def orderedRows (t : Table Int ProjectedGrant) : List (Int × ProjectedGrant) :=
  t.rows.insertionSort fun a b => a.1 ≤ b.1

/-- Write the flags that have changed. -/
def writeLive (live : List Decoded) (t : Table Int ProjectedGrant) (g : Decoded) : Table Int ProjectedGrant :=
  let isLive := decide (g ∈ live)
  if isLive ≠ g.wasLive then t.modify g.id fun row => { row with live := isLive } else t

namespace GrantLog

def recomputeLiveness (codec : VerbCodec) (log : GrantLog) : Except StoreError GrantLog := do
  let grants ← (orderedRows log.projected).mapM (decode codec)
  let live := forwardPass (Decoded.accepts log.revocations) grants
  return { log with projected := grants.foldl (writeLive live) log.projected }

/-- The cursor never moves back. -/
def setCursor (log : GrantLog) (seq : Int) : GrantLog :=
  { log with cursor := if log.cursor < seq then seq else log.cursor }

/-! ## Transactions -/

def new : GrantLog := ⟨[], Table.empty, ∅, 0⟩

/-- `AUTOINCREMENT`: one more than any number given out, up to the largest there is. -/
def nextSeq (log : GrantLog) : Except StoreError Int :=
  let last := (log.events.getLast?.map EventRow.seq).getD 0
  if last < 2 ^ 63 - 1 then .ok (last + 1) else .error (.database "database or disk is full")

def appendGranted (codec : VerbCodec) (log : GrantLog) (grant : GrantRow) : Except StoreError (GrantLog × GrantId) := do
  let seq ← log.nextSeq
  let log : GrantLog := { log with
    events := log.events ++ [.ofGranted codec seq grant]
    projected := log.projected.insertNew seq (.ofGrant codec grant false) }
  let log ← log.recomputeLiveness codec
  return (log.setCursor seq, asU64 seq)

def appendRevoked (codec : VerbCodec) (log : GrantLog) (target : GrantId) : Except StoreError GrantLog := do
  let seq ← log.nextSeq
  let log : GrantLog := { log with
    events := log.events ++ [.ofRevoked seq target]
    revocations := insert (asI64 target) log.revocations }
  let log ← log.recomputeLiveness codec
  return log.setCursor seq

/-- The two `SELECT`s that feed the projection. -/
def grantedRows (rows : List EventRow) : List (Int × ProjectedGrant) :=
  (rows.filter fun r => r.kind = .granted).filterMap fun r => r.project.map fun g => (r.seq, g)

def revokedRows (rows : List EventRow) : List Int := (rows.filter fun r => r.kind = .revoked).filterMap EventRow.targetId

def takeIn (log : GrantLog) (rows : List EventRow) : GrantLog :=
  { log with
    projected := (grantedRows rows).foldl (fun t r => t.insertNew r.1 r.2) log.projected
    revocations := log.revocations ∪ (revokedRows rows).toFinset }

/-- Fold the events after `after` into the tables. -/
def applyEventsAfter (codec : VerbCodec) (log : GrantLog) (after : Int) : Except StoreError GrantLog :=
  match (log.events.map EventRow.seq).max? with
  | none => .ok log
  | some maxSeq =>
    if maxSeq ≤ after then .ok log
    else do
      let log ← (log.takeIn (log.events.filter fun r => after < r.seq)).recomputeLiveness codec
      return log.setCursor maxSeq

def rebuildProjection (codec : VerbCodec) (log : GrantLog) : Except StoreError GrantLog :=
  applyEventsAfter codec { log with projected := Table.empty, revocations := ∅, cursor := 0 } 0

/-- Runs at `open`. -/
def catchUp (codec : VerbCodec) (log : GrantLog) : Except StoreError GrantLog := log.applyEventsAfter codec log.cursor

/-! ## Queries -/

structure LiveGrant where
  id : GrantId
  verbs : Finset Verb
  scope : Scope
deriving DecidableEq

def liveGrant (codec : VerbCodec) (r : Int × ProjectedGrant) : Except StoreError LiveGrant := do
  let verbs ← decodeVerbs codec r.2.verbs r.1
  return ⟨asU64 r.1, verbs, Scope.fromKindValue r.2.scopeKind r.2.scopeValue⟩

def liveGrantsFor (codec : VerbCodec) (log : GrantLog) (principal : Principal) : Except StoreError (List LiveGrant) :=
  let rows := (orderedRows log.projected).filter fun r => r.2.granteeAgent = principal.column && r.2.live
  rows.mapM (liveGrant codec)

def can (codec : VerbCodec) (log : GrantLog) (principal : Principal) (verb : Verb) (resource : String) :
    Except StoreError Bool :=
  if principal.owns resource then .ok true
  else do
    let grants ← log.liveGrantsFor codec principal
    return grants.any fun g => verb ∈ g.verbs && g.scope.covers resource

/-- Every event, in log order. -/
def replay (codec : VerbCodec) (log : GrantLog) : Except StoreError (List GrantEvent) :=
  (log.events.insertionSort fun a b => a.seq ≤ b.seq).mapM (EventRow.intoEvent codec)

/-! ## Histories -/

inductive Call where
  | granted (grant : GrantRow)
  | revoked (target : GrantId)
  | rebuild
  /-- the log is closed and opened again -/
  | reopen

/-- A call that fails is rolled back. -/
def call (codec : VerbCodec) (log : GrantLog) : Call → GrantLog
  | .granted grant => (log.appendGranted codec grant).toOption.elim log Prod.fst
  | .revoked target => (log.appendRevoked codec target).toOption.getD log
  | .rebuild => (log.rebuildProjection codec).toOption.getD log
  | .reopen => (log.catchUp codec).toOption.getD log

def run (codec : VerbCodec) (calls : List Call) : GrantLog := calls.foldl (call codec) new

end GrantLog

end FactorQ.Grants
