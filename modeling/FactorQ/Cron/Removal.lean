/-
# `FactorQ.Cron.Removal` — deleting the rows of jobs that are gone

A job that a reload drops stops firing at once, but its row is kept for a while: a file that
lacks a job does not always mean to lose it.  When the deadline has passed the loop asks the
watcher for its current configuration, and the rows of the jobs that are still absent are
deleted.

In `FactorQ.Cron.Reload` all of that is one step.  Here it is taken apart, because the store is
the broker and a delete can fail: the answer of the recheck, the decision, every single delete,
and the pauses between the attempts are steps of their own, and the watcher goes on in between.
A removal that nothing disturbs does what the one step did (`undisturbed_removal_settles`).

Whatever happens, the rows that are deleted are of jobs that the loop has been without for as
long as the removal has to be confirmed.  But absence from the watcher's configuration is
decided once.  A configuration accepted afterwards, while deletes are still tried, can bring the
job back, and its row is deleted all the same (`readded_job_loses_row`).  `deletes_only_absent`:
as long as the watcher accepts no such configuration in that time, the jobs are absent
there as well.
-/
import FactorQ.Cron.Reload

namespace FactorQ.Cron

open Lib

/-! ## Taking a removal apart -/

/-- Where `confirmRemovals` is once the recheck has answered. -/
inductive Removing where
  | no
  | deciding (authoritative : Config)
  /-- in an attempt to delete the rows of `confirmed`, with `left` to go -/
  | deleting (confirmed left : List String) (backoff : Int)
  /-- between two attempts -/
  | pausing (confirmed : List String) (backoff : Int)

/-- The jobs whose rows are being deleted. -/
def Removing.names : Removing → List String
  | .deleting confirmed _ _ | .pausing confirmed _ => confirmed
  | _ => []

/-- A delete that fails may have taken effect. -/
inductive DeleteAnswer where
  | deleted
  | failed (tookEffect : Bool)

section Process

variable (Content Sig : Type)

structure Process where
  sys : System Content Sig
  removing : Removing
  /-- every configuration the loop has put in force, with the instant, oldest first -/
  inForce : List (Int × Config)

inductive Occurrence where
  /-- the file, the watcher, or the loop outside of `confirmRemovals` -/
  | system (act : Act Content)
  | decide
  /-- the store answers the delete that is out -/
  | answer (answer : DeleteAnswer)
  /-- the pause is over -/
  | retry

variable {Content Sig} [DecidableEq Sig] (lib : Libraries) (window : Int) (reader : Reader Content Sig)

namespace Process

/-- The loop's own check has come to an end; what it accepts is put in force on the spot. -/
def rechecked (p : Process Content Sig) (w : Watcher Sig) : Outcome → Process Content Sig
  | .accepted event =>
    { sys :=
        { p.sys with
          watcher := w
          check := .resting
          loop := p.sys.loop.applyReload window event
          accepted := p.sys.accepted + 1
          applied := p.sys.applied ++ [p.sys.accepted + 1] }
      removing := .deciding event.config
      inForce := p.inForce ++ [(p.sys.loop.clock, event.config)] }
  | _ => { p with sys := { p.sys with watcher := w, check := .fetching } }

/-- The removals that are due: those of jobs that are back are dropped. -/
def decided (authoritative : Config) (p : Process Content Sig) : Process Content Sig :=
  let due := p.sys.loop.deadlines.due p.sys.loop.clock
  let confirmed := due.filter fun name => name ∉ authoritative.names
  let loop := { p.sys.loop with deadlines := p.sys.loop.deadlines.forget (due.filter fun name => name ∈ authoritative.names) }
  if confirmed = [] then { p with sys := { p.sys with loop := { loop with pc := .planning } }, removing := .no }
  else { p with sys := { p.sys with loop := loop }, removing := .deleting confirmed confirmed initialRetryBackoff }

def erased (name : String) (p : Process Content Sig) : Process Content Sig :=
  { p with sys := { p.sys with loop := { p.sys.loop with store := p.sys.loop.store.erase name } } }

/-- On to the next delete, or out of `confirmRemovals` after the last. -/
def carriedOn (confirmed left : List String) (backoff : Int) (p : Process Content Sig) : Process Content Sig :=
  match left with
  | [] =>
    { p with
      sys := { p.sys with
        loop := { p.sys.loop with deadlines := p.sys.loop.deadlines.forget confirmed, pc := .planning } }
      removing := .no }
  | _ => { p with removing := .deleting confirmed left backoff }

def answered (name : String) (confirmed left : List String) (backoff : Int) (p : Process Content Sig) :
    DeleteAnswer → Process Content Sig
  | .deleted => (p.erased name).carriedOn confirmed left backoff
  | .failed true => { p.erased name with removing := .pausing confirmed backoff }
  | .failed false => { p with removing := .pausing confirmed backoff }

/-- What a hand-over puts in force. -/
def handed (p : Process Content Sig) : List (Int × Config) :=
  match p.sys.goroutine, p.sys.loop.pc with
  | .handing event _, .idle _ | .handing event _, .waiting _ _ => [(p.sys.loop.clock, event.config)]
  | _, _ => []

def step (p : Process Content Sig) : Occurrence Content → Process Content Sig
  | .system .loopLook =>
    match p.removing with
    | .no => { p with sys := p.sys.step lib window reader .loopLook }
    | _ => p
  | .system .loopConfirm =>
    match p.sys.check with
    | .settling read =>
      let (w, outcome) := p.sys.watcher.conclude reader read p.sys.file
      p.rechecked window w outcome
    | _ => p
  | .system .loopFetch =>
    match p.sys.check with
    | .fetching =>
      if p.sys.unlocked then
        { p with sys := { p.sys with check := .resting }, removing := .deciding p.sys.watcher.current }
      else p
    | _ => p
  | .system .handOver => { p with sys := p.sys.step lib window reader .handOver, inForce := p.inForce ++ p.handed }
  | .system act => { p with sys := p.sys.step lib window reader act }
  | .decide =>
    match p.removing with
    | .deciding authoritative => p.decided authoritative
    | _ => p
  | .answer answer =>
    match p.removing with
    | .deleting confirmed (name :: left) backoff => p.answered name confirmed left backoff answer
    | _ => p
  | .retry =>
    match p.removing with
    | .pausing confirmed backoff => { p with removing := .deleting confirmed confirmed (nextBackoff backoff) }
    | _ => p

def start (file : FileRead Content) (running : Config) (seen : Option Sig) (store : States) (clock : Int) :
    Process Content Sig :=
  ⟨.start file running seen store clock, .no, [(clock, running)]⟩

end Process

end Process

/-! ## An undisturbed removal -/

section Settled

variable {Content Sig : Type} [DecidableEq Sig] {lib : Libraries} {window : Int} {reader : Reader Content Sig}
  {p : Process Content Sig}

theorem Process.deletes_all (p : Process Content Sig) (confirmed left : List String) (backoff : Int) :
    (List.replicate left.length (Occurrence.answer .deleted)).foldl (Process.step lib window reader)
        (p.carriedOn confirmed left backoff) =
      { p with
        sys := { p.sys with
          loop := { p.sys.loop with
            store := p.sys.loop.store.delete fun name _ => name ∈ left
            deadlines := p.sys.loop.deadlines.forget confirmed
            pc := .planning } }
        removing := .no } := by
  induction left generalizing p with
  | nil =>
    rw [Table.delete_eq_self fun _ _ => rfl]
    rfl
  | cons name left ih =>
    have hstore : (p.sys.loop.store.erase name).delete (fun k _ => k ∈ left) =
        p.sys.loop.store.delete fun k _ => k ∈ name :: left :=
      Table.delete_delete _ fun k _ => (decide_eq_decide.mpr List.mem_cons).trans (Bool.decide_or ..)
    rw [← hstore]
    exact ih (p.erased name)

/-- With nothing in between, deciding and deleting is what `settleRemovals` does. -/
theorem undisturbed_removal_settles {authoritative : Config} (h : p.removing = .deciding authoritative) :
    ∃ n, (Occurrence.decide :: List.replicate n (Occurrence.answer .deleted)).foldl (Process.step lib window reader) p =
      { p with
        sys := { p.sys with loop := p.sys.loop.settleRemovals authoritative }
        removing := .no } := by
  -- dropping the removals of jobs that are back and then the rest is dropping all that are due
  have hforget : ∀ due : List String, (p.sys.loop.deadlines.forget (due.filter fun name => name ∈ authoritative.names)).forget
      (due.filter fun name => name ∉ authoritative.names) = p.sys.loop.deadlines.forget due := by
    intro due
    refine Table.delete_delete _ fun k _ => ?_
    rw [← Bool.decide_or, decide_eq_decide, List.mem_filter, List.mem_filter, ← and_or_left, decide_eq_true_iff,
      decide_eq_true_iff]
    exact (and_iff_left (Classical.em _)).symm
  have hdecide : p.step lib window reader .decide = p.decided authoritative := by
    unfold Process.step
    rw [h]
  have hsettle := hforget (p.sys.loop.deadlines.due p.sys.loop.clock)
  generalize hconfirmed : ((p.sys.loop.deadlines.due p.sys.loop.clock).filter fun name => name ∉ authoritative.names) =
    confirmed at hsettle
  refine ⟨confirmed.length, ?_⟩
  rw [List.foldl_cons, hdecide, Process.decided, Scheduler.settleRemovals]
  dsimp only
  rw [hconfirmed, ← hsettle]
  cases confirmed with
  | nil =>
    have hnone : ∀ {ν : Type} (t : Table String ν), t.delete (fun name _ => name ∈ []) = t := fun t =>
      Table.delete_eq_self fun _ _ => rfl
    have hforgets : ∀ d : Deadlines, d.forget [] = d := fun d => hnone d
    rw [if_pos rfl, hnone, hforgets]
    rfl
  | cons name confirmed =>
    rw [if_neg (List.cons_ne_nil _ _)]
    exact Process.deletes_all
      { p with sys := { p.sys with loop := { p.sys.loop with deadlines := p.sys.loop.deadlines.forget _ } } }
      (name :: confirmed) (name :: confirmed) initialRetryBackoff

end Settled

/-! ## How long a job has been absent -/

/-- Since the instant `t` the loop has had no configuration in force that declares the job. -/
def AbsentSince (inForce : List (Int × Config)) (t : Int) (name : String) : Prop :=
  ∃ before config after, inForce = before ++ (t, config) :: after ∧
    ∀ entry ∈ (t, config) :: after, name ∉ entry.2.names

variable {name : String}

theorem AbsentSince.concat {inForce : List (Int × Config)} {t now : Int} {config : Config}
    (h : AbsentSince inForce t name) (hnot : name ∉ config.names) :
    AbsentSince (inForce ++ [(now, config)]) t name := by
  obtain ⟨before, first, after, rfl, hall⟩ := h
  refine ⟨before, first, after ++ [(now, config)], by rw [List.append_assoc]; rfl, ?_⟩
  intro entry hentry
  rw [← List.cons_append] at hentry
  rcases List.mem_append.mp hentry with hold | hnew
  · exact hall entry hold
  · rw [List.mem_singleton.mp hnew]
    exact hnot

theorem AbsentSince.now {now : Int} {config : Config} (inForce : List (Int × Config))
    (hnot : name ∉ config.names) : AbsentSince (inForce ++ [(now, config)]) now name := by
  refine ⟨inForce, config, [], rfl, fun entry hentry => ?_⟩
  rw [List.mem_singleton.mp hentry]
  exact hnot

/-- What an event drops is not in its configuration. -/
def ReloadEvent.Drops (event : ReloadEvent) : Prop := ∀ name ∈ event.diff.removed, name ∉ event.config.names

variable {event : ReloadEvent}

theorem Watcher.conclude_drops {Content Sig : Type} [DecidableEq Sig] {reader : Reader Content Sig}
    {read confirm : FileRead Content} {w : Watcher Sig}
    (h : (w.conclude reader read confirm).2 = .accepted event) : event.Drops := by
  unfold Watcher.conclude at h
  dsimp only at h
  split at h
  next => cases h
  next =>
    split at h
    next => cases h
    next =>
      split at h
      next => cases h
      next next _ =>
        cases h
        intro name hname
        have hmem := (List.mem_insertionSort _).mp hname
        exact of_decide_eq_true (List.mem_filter.mp hmem).2

variable {deadlines : Deadlines}

theorem Deadlines.get?_park {names : List String} {deadline d : Int}
    (h : (deadlines.park names deadline).get? name = some d) :
    deadlines.get? name = some d ∨ (name ∈ names ∧ d = deadline) := by
  induction names generalizing deadlines with
  | nil => exact .inl h
  | cons first names ih =>
    rcases ih h with hget | ⟨hmem, hd⟩
    · rw [Table.get?_insertNew] at hget
      split at hget
      next heq =>
        subst heq
        cases hold : deadlines.get? name with
        | none =>
          rw [hold] at hget
          cases hget
          exact .inr ⟨List.mem_cons_self, rfl⟩
        | some d' =>
          rw [hold] at hget
          exact .inl hget
      next => exact .inl hget
    · exact .inr ⟨List.mem_cons_of_mem _ hmem, hd⟩

theorem Deadlines.get?_forget {names : List String} {d : Int} :
    (deadlines.forget names).get? name = some d ↔ deadlines.get? name = some d ∧ name ∉ names := by
  unfold Deadlines.forget
  rw [Table.get?_delete, Option.filter_eq_some_iff, Bool.not_eq_true', decide_eq_false_iff_not]

theorem Deadlines.mem_due {now : Int} :
    name ∈ deadlines.due now ↔ ∃ d, deadlines.get? name = some d ∧ d ≤ now := by
  unfold Deadlines.due sorted
  rw [List.mem_insertionSort, List.mem_map]
  constructor
  · rintro ⟨⟨n, d⟩, hrow, rfl⟩
    obtain ⟨hmem, hle⟩ := List.mem_filter.mp hrow
    exact ⟨d, Table.mem_rows.mp hmem, of_decide_eq_true hle⟩
  · rintro ⟨d, hget, hle⟩
    exact ⟨(name, d), List.mem_filter.mpr ⟨Table.mem_rows.mpr hget, decide_eq_true hle⟩, rfl⟩

/-- Every parked name has been absent since it was parked. -/
def Parked (window : Int) (inForce : List (Int × Config)) (deadlines : Deadlines) : Prop :=
  ∀ name deadline, deadlines.get? name = some deadline → AbsentSince inForce (deadline - confirmWindow window) name

/-- A reload cancels the removals of the jobs it declares, and parks those of the jobs it drops. -/
theorem Parked.applyReload {window : Int} {inForce : List (Int × Config)} {loop : Scheduler}
    (h : Parked window inForce loop.deadlines) (hdrops : event.Drops) :
    Parked window (inForce ++ [(loop.clock, event.config)]) (loop.applyReload window event).deadlines := by
  intro name deadline hget
  rcases Deadlines.get?_park hget with hkept | ⟨hmem, rfl⟩
  · unfold Deadlines.retain at hkept
    rw [Table.get?_delete, Option.filter_eq_some_iff, Bool.not_eq_true', decide_eq_false_iff_not] at hkept
    exact (h name deadline hkept.1).concat hkept.2
  · rw [Int.add_sub_cancel]
    exact .now inForce (hdrops name hmem)

/-! ## What holds in every run -/

section Runs

variable {Content Sig : Type} {window : Int}

structure Process.Sound (window : Int) (p : Process Content Sig) : Prop where
  opened : p.sys.loop.reloads = true
  last : p.inForce.getLast?.map Prod.snd = some p.sys.loop.config
  handing : ∀ event number, p.sys.goroutine = .handing event number → event.Drops
  parked : Parked window p.inForce p.sys.loop.deadlines
  checking : p.sys.check ≠ .resting → p.sys.loop.pc = .confirming ∧ p.removing = .no
  removing : p.removing ≠ .no → p.sys.loop.pc = .confirming
  left : ∀ confirmed left backoff, p.removing = .deleting confirmed left backoff → left ⊆ confirmed
  due : ∀ name ∈ p.removing.names, ∃ deadline, p.sys.loop.deadlines.get? name = some deadline ∧
    deadline ≤ p.sys.loop.clock

/-- On its own the loop parks nothing, and time goes on. -/
theorem Scheduler.step_own_deadlines {lib : Libraries} (s : Scheduler) {e : Event} (he : e.own = true) :
    (s.step lib window e).deadlines = s.deadlines ∧ s.clock ≤ (s.step lib window e).clock := by
  have hm : s.Moves lib window e (s.step lib window e) := Scheduler.step_moves s e
  have hlater : ∀ elapsed : Nat, s.clock ≤ s.clock + elapsed := fun elapsed =>
    Int.le_add_of_nonneg_right (Int.natCast_nonneg elapsed)
  generalize s.step lib window e = s' at hm
  cases hm with
  | tick elapsed => exact ⟨rfl, hlater elapsed⟩
  | waits _ elapsed => exact ⟨rfl, hlater elapsed⟩
  | goes _ elapsed => exact ⟨rfl, hlater elapsed⟩
  | settles => cases he
  | rechecks => cases he
  | reloads => cases he
  | _ => exact ⟨rfl, le_rfl⟩

theorem Process.handOver_cases [DecidableEq Sig] (lib : Libraries) (window : Int) (reader : Reader Content Sig)
    (p : Process Content Sig) :
    (∃ event number, p.sys.goroutine = .handing event number ∧ p.sys.loop.pc.Selects ∧
      p.sys.step lib window reader .handOver = p.sys.handed lib window event number ∧
      p.handed = [(p.sys.loop.clock, event.config)]) ∨
    (p.sys.step lib window reader .handOver = p.sys ∧ p.handed = []) := by
  unfold System.step Process.handed
  cases hg : p.sys.goroutine with
  | handing event number =>
    cases hpc : p.sys.loop.pc with
    | idle valve => exact .inl ⟨event, number, rfl, trivial, rfl, rfl⟩
    | waiting state fires => exact .inl ⟨event, number, rfl, trivial, rfl, rfl⟩
    | _ => exact .inr ⟨rfl, rfl⟩
  | _ => exact .inr ⟨rfl, rfl⟩

namespace Process.Sound

variable {lib : Libraries} {reader : Reader Content Sig} {p : Process Content Sig}

theorem start (file : FileRead Content) (running : Config) (seen : Option Sig) (store : States) (clock : Int) :
    (Process.start file running seen store clock).Sound window where
  opened := rfl
  last := rfl
  handing := fun _ _ h => by cases h
  parked := fun _ _ h => by cases h
  checking := fun h => absurd rfl h
  removing := fun h => absurd rfl h
  left := fun _ _ _ h => by cases h
  due := fun _ h => by cases h

section

variable (h : p.Sound window)
include h

theorem free (hpc : p.sys.loop.pc ≠ .confirming) : p.sys.check = .resting ∧ p.removing = .no := by
  constructor
  · by_contra hne
    exact hpc (h.checking hne).1
  · by_contra hne
    exact hpc (h.removing hne)

theorem resting (hne : p.removing ≠ .no) : p.sys.check = .resting := by
  by_contra hcheck
  exact hne (h.checking hcheck).2

theorem handed {number : Nat} (hg : p.sys.goroutine = .handing event number) (hpc : p.sys.loop.pc.Selects) :
    { p with
      sys := p.sys.handed lib window event number
      inForce := p.inForce ++ [(p.sys.loop.clock, event.config)] : Process Content Sig }.Sound window := by
  have hne : p.sys.loop.pc ≠ .confirming := by
    intro heq
    rw [heq] at hpc
    exact hpc
  obtain ⟨hcheck, hremoving⟩ := h.free hne
  have hloop : (p.sys.handed lib window event number).loop =
      { p.sys.loop.applyReload window event with pc := .planning } :=
    @Scheduler.step_reload lib window _ hpc h.opened event
  refine ⟨?_, ?_, fun _ _ hw => (by cases hw), ?_, fun hc => absurd hcheck hc, fun hr => absurd hremoving hr, ?_, ?_⟩
  · rw [hloop]
    exact h.opened
  · rw [List.getLast?_concat, hloop]
    rfl
  · rw [hloop]
    exact h.parked.applyReload (h.handing event number hg)
  · intro confirmed left backoff hr
    cases hremoving.symm.trans hr
  · intro name hname
    rw [hremoving] at hname
    cases hname

theorem aside {sys : System Content Sig} (hloop : sys.loop = p.sys.loop) (hcheck : sys.check = p.sys.check)
    (hhanding : ∀ event number, sys.goroutine = .handing event number → event.Drops) :
    { p with sys := sys : Process Content Sig }.Sound window := by
  refine ⟨?_, ?_, hhanding, ?_, ?_, ?_, h.left, ?_⟩
  · rw [hloop]
    exact h.opened
  · rw [hloop]
    exact h.last
  · rw [hloop]
    exact h.parked
  · rw [hloop, hcheck]
    exact h.checking
  · rw [hloop]
    exact h.removing
  · rw [hloop]
    exact h.due

theorem decided {authoritative : Config} (hr : p.removing = .deciding authoritative) :
    (p.decided authoritative).Sound window := by
  have hne : p.removing ≠ .no := by
    rw [hr]
    exact Removing.noConfusion
  have hcheck := h.resting hne
  have hparked : ∀ names, Parked window p.inForce (p.sys.loop.deadlines.forget names) := fun names name deadline hget =>
    h.parked name deadline (Deadlines.get?_forget.mp hget).1
  unfold Process.decided
  dsimp only
  split
  next =>
    exact ⟨h.opened, h.last, h.handing, hparked _, fun hc => absurd hcheck hc, fun hr => absurd rfl hr,
      fun _ _ _ hd => (by cases hd), fun _ hn => (by cases hn)⟩
  next =>
    refine ⟨h.opened, h.last, h.handing, hparked _, fun hc => absurd hcheck hc, fun _ => h.removing hne, ?_, ?_⟩
    · intro confirmed left backoff hd
      cases hd
      exact fun _ hname => hname
    · intro name hname
      obtain ⟨hdue, hnot⟩ := List.mem_filter.mp hname
      obtain ⟨deadline, hget, hle⟩ := Deadlines.mem_due.mp hdue
      refine ⟨deadline, Deadlines.get?_forget.mpr ⟨hget, fun hback => ?_⟩, hle⟩
      exact of_decide_eq_true hnot (of_decide_eq_true (List.mem_filter.mp hback).2)

theorem answered {confirmed left : List String} {backoff : Int}
    (hr : p.removing = .deleting confirmed (name :: left) backoff) (answer : DeleteAnswer) :
    (p.answered name confirmed left backoff answer).Sound window := by
  have hne : p.removing ≠ .no := by
    rw [hr]
    exact Removing.noConfusion
  have hcheck := h.resting hne
  have hpc := h.removing hne
  have hdue := h.due
  rw [hr] at hdue
  have hleft := h.left _ _ _ hr
  cases answer with
  | failed tookEffect =>
    cases tookEffect <;>
      exact ⟨h.opened, h.last, h.handing, h.parked, fun hc => absurd hcheck hc, fun _ => hpc,
        fun _ _ _ hd => (by cases hd), hdue⟩
  | deleted =>
    cases left with
    | nil =>
      exact ⟨h.opened, h.last, h.handing,
        fun name deadline hget => h.parked name deadline (Deadlines.get?_forget.mp hget).1,
        fun hc => absurd hcheck hc, fun hr => absurd rfl hr, fun _ _ _ hd => (by cases hd), fun _ hn => (by cases hn)⟩
    | cons next left =>
      refine ⟨h.opened, h.last, h.handing, h.parked, fun hc => absurd hcheck hc, fun _ => hpc, ?_, hdue⟩
      intro _ _ _ hd
      cases hd
      exact fun _ hname => hleft (List.mem_cons_of_mem _ hname)

theorem loops {e : Event} (he : e.own = true) :
    { p with sys := { p.sys with loop := p.sys.loop.step lib window e } : Process Content Sig }.Sound window := by
  obtain ⟨hconfig, hopen, hconf⟩ := @Scheduler.step_own lib window p.sys.loop e he
  obtain ⟨hdeadlines, hclock⟩ := @Scheduler.step_own_deadlines window lib p.sys.loop e he
  refine ⟨hopen.trans h.opened, ?_, h.handing, ?_, fun hc => ⟨hconf (h.checking hc).1, (h.checking hc).2⟩,
    fun hr => hconf (h.removing hr), h.left, fun name hname => ?_⟩
  · rw [hconfig]
    exact h.last
  · rw [hdeadlines]
    exact h.parked
  · obtain ⟨deadline, hget, hle⟩ := h.due name hname
    exact ⟨deadline, by rw [hdeadlines]; exact hget, hle.trans hclock⟩

end

variable [DecidableEq Sig]

variable {w : Watcher Sig}

theorem rechecked {read : FileRead Content} {outcome : Outcome} (h : p.Sound window)
    (hs : p.sys.check = .settling read) (hc : p.sys.watcher.conclude reader read p.sys.file = (w, outcome)) :
    (p.rechecked window w outcome).Sound window := by
  obtain ⟨hpc, hremoving⟩ := h.checking (by rw [hs]; intro hc; cases hc)
  cases outcome with
  | accepted event =>
    have hdrops : event.Drops := Watcher.conclude_drops (by rw [hc])
    have hlast : (p.inForce ++ [(p.sys.loop.clock, event.config)]).getLast?.map Prod.snd = some event.config := by
      rw [List.getLast?_concat]
      rfl
    exact ⟨h.opened, hlast, h.handing, h.parked.applyReload hdrops, fun hne => absurd rfl hne, fun _ => hpc,
      fun _ _ _ hd => (by cases hd), fun _ hn => (by cases hn)⟩
  | _ => exact ⟨h.opened, h.last, h.handing, h.parked, fun _ => ⟨hpc, hremoving⟩, h.removing, h.left, h.due⟩

theorem checked {read : FileRead Content} {outcome : Outcome} (h : p.Sound window)
    (hc : p.sys.watcher.conclude reader read p.sys.file = (w, outcome)) :
    { p with sys := p.sys.checked w outcome : Process Content Sig }.Sound window := by
  cases outcome with
  | accepted event =>
    refine h.aside rfl rfl fun event' number hg => ?_
    cases hg
    exact Watcher.conclude_drops (by rw [hc])
  | _ => exact h.aside rfl rfl fun _ _ hg => by cases hg

theorem step (o : Occurrence Content) (h : p.Sound window) : (p.step lib window reader o).Sound window := by
  cases o with
  | system act =>
    cases act with
    | write file => exact h.aside rfl rfl h.handing
    | look =>
      refine h.aside ?_ ?_ ?_
      all_goals
        dsimp only [System.step]
        split
        next =>
          split
          next => first | rfl | exact fun _ _ hg => by cases hg
          next => first | rfl | exact h.handing
        next => first | rfl | exact h.handing
    | confirm =>
      dsimp only [Process.step, System.step]
      split
      next read hg => exact h.checked rfl
      next => exact h
    | handOver =>
      dsimp only [Process.step]
      rcases p.handOver_cases lib window reader with ⟨event, number, hg, hpc, hsys, hforce⟩ | ⟨hsys, hforce⟩
      · rw [hsys, hforce]
        exact h.handed hg hpc
      · rw [hsys, hforce, List.append_nil]
        exact h
    | loopLook =>
      dsimp only [Process.step]
      split
      next hr =>
        dsimp only [System.step]
        split
        next hpc =>
          split
          next =>
            exact ⟨h.opened, h.last, h.handing, h.parked, fun _ => ⟨hpc, hr⟩, fun hne => absurd hr hne, h.left, h.due⟩
          next => exact h
        next => exact h
      next => exact h
    | loopConfirm =>
      dsimp only [Process.step]
      split
      next read hs => exact h.rechecked hs rfl
      next => exact h
    | loopFetch =>
      dsimp only [Process.step]
      split
      next hs =>
        split
        next =>
          obtain ⟨hpc, -⟩ := h.checking (by rw [hs]; intro hc; cases hc)
          exact ⟨h.opened, h.last, h.handing, h.parked, fun hne => absurd rfl hne, fun _ => hpc,
            fun _ _ _ hd => (by cases hd), fun _ hn => (by cases hn)⟩
        next => exact h
      next => exact h
    | loop e =>
      dsimp only [Process.step, System.step]
      split
      next he => exact h.loops he
      next => exact h
  | decide =>
    dsimp only [Process.step]
    split
    next authoritative hr => exact h.decided hr
    next => exact h
  | answer answer =>
    dsimp only [Process.step]
    split
    next confirmed name left backoff hr => exact h.answered hr answer
    next => exact h
  | retry =>
    dsimp only [Process.step]
    split
    next confirmed backoff hr =>
      have hdue := h.due
      rw [hr] at hdue
      refine ⟨h.opened, h.last, h.handing, h.parked, ?_, fun _ => h.removing ?_, ?_, hdue⟩
      · intro hc
        exact absurd (h.resting (by rw [hr]; exact Removing.noConfusion)) hc
      · rw [hr]
        exact Removing.noConfusion
      · intro _ _ _ hd
        cases hd
        exact fun _ hname => hname
    next => exact h

theorem run (os : List (Occurrence Content)) (h : p.Sound window) :
    (os.foldl (Process.step lib window reader) p).Sound window := by
  induction os generalizing p with
  | nil => exact h
  | cons o os ih => exact ih (h.step o)

end Process.Sound

/-! ## Absence from the watcher's configuration -/

/-- The jobs that may lose their rows: while the loop decides, those that are parked and absent
from the recheck's answer. -/
def Process.atStake (p : Process Content Sig) : List String :=
  match p.removing with
  | .deciding authoritative => (p.sys.loop.deadlines.rows.map Prod.fst).filter fun name => name ∉ authoritative.names
  | removing => removing.names

/-- The watcher accepts no configuration that declares a job at stake. -/
def Undisturbed [DecidableEq Sig] (reader : Reader Content Sig) (p : Process Content Sig) : Occurrence Content → Prop
  | .system .confirm => ∀ read event, p.sys.goroutine = .settling read →
      (p.sys.watcher.conclude reader read p.sys.file).2 = .accepted event →
      ∀ name ∈ p.atStake, name ∉ event.config.names
  | _ => True

/-- No job at stake is in the watcher's configuration. -/
def Process.Spared (p : Process Content Sig) : Prop := ∀ name ∈ p.atStake, name ∉ p.sys.watcher.current.names

namespace Process.Spared

variable {lib : Libraries} {reader : Reader Content Sig} {p p' : Process Content Sig}

theorem of_no (h : p.removing = .no) : p.Spared := by
  intro name hname
  unfold Process.atStake at hname
  rw [h] at hname
  cases hname

/-- What is at stake stays so, and the watcher keeps its configuration. -/
theorem same (h : p.Spared) (hremoving : p'.removing = p.removing)
    (hdeadlines : p'.sys.loop.deadlines = p.sys.loop.deadlines)
    (hcurrent : p'.sys.watcher.current = p.sys.watcher.current) : p'.Spared := by
  unfold Process.Spared Process.atStake at h ⊢
  rw [hremoving, hdeadlines, hcurrent]
  exact h

theorem decided {authoritative : Config} (h : p.Spared) (hr : p.removing = .deciding authoritative) :
    (p.decided authoritative).Spared := by
  unfold Process.decided
  dsimp only
  split
  next => exact .of_no rfl
  next =>
    intro name hname
    obtain ⟨hdue, hnot⟩ := List.mem_filter.mp hname
    obtain ⟨deadline, hget, -⟩ := Deadlines.mem_due.mp hdue
    refine h name ?_
    unfold Process.atStake
    rw [hr]
    exact List.mem_filter.mpr ⟨List.mem_map_of_mem (Table.mem_rows.mpr hget), hnot⟩

theorem answered {confirmed left : List String} {backoff : Int} (h : p.Spared)
    (hr : p.removing = .deleting confirmed (name :: left) backoff) (answer : DeleteAnswer) :
    (p.answered name confirmed left backoff answer).Spared := by
  have hnames : ∀ n ∈ confirmed, n ∉ p.sys.watcher.current.names := by
    intro n hn
    refine h n ?_
    unfold Process.atStake
    rw [hr]
    exact hn
  cases answer with
  | failed tookEffect => cases tookEffect <;> exact hnames
  | deleted =>
    cases left with
    | nil => exact .of_no rfl
    | cons next left => exact hnames

variable [DecidableEq Sig]

theorem checked {read : FileRead Content} {outcome : Outcome} (h : p.Spared)
    (hc : p.sys.watcher.conclude reader read p.sys.file = (w, outcome))
    (hok : ∀ event, outcome = .accepted event → ∀ name ∈ p.atStake, name ∉ event.config.names) :
    { p with sys := p.sys.checked w outcome : Process Content Sig }.Spared := by
  rcases Watcher.conclude_current hc with ⟨event, rfl, hcurrent⟩ | ⟨hno, hcurrent⟩
  · intro name hname
    show name ∉ w.current.names
    rw [hcurrent]
    exact hok event rfl name hname
  · cases outcome with
    | accepted event => exact absurd rfl (hno event)
    | _ => exact h.same rfl rfl hcurrent

theorem rechecked {read : FileRead Content} {outcome : Outcome} (hr : p.removing = .no)
    (hc : p.sys.watcher.conclude reader read p.sys.file = (w, outcome)) : (p.rechecked window w outcome).Spared := by
  rcases Watcher.conclude_current hc with ⟨event, rfl, hcurrent⟩ | ⟨hno, -⟩
  · intro name hname
    show name ∉ w.current.names
    rw [hcurrent]
    exact of_decide_eq_true (List.mem_filter.mp hname).2
  · cases outcome with
    | accepted event => exact absurd rfl (hno event)
    | _ => exact .of_no hr

theorem step (o : Occurrence Content) (hok : Undisturbed reader p o) (hs : p.Sound window) (h : p.Spared) :
    (p.step lib window reader o).Spared := by
  cases o with
  | system act =>
    cases act with
    | write file => exact h.same rfl rfl rfl
    | look =>
      dsimp only [Process.step, System.step]
      split
      next =>
        split
        next => exact h.same rfl rfl rfl
        next => exact h
      next => exact h
    | confirm =>
      dsimp only [Process.step, System.step]
      split
      next read hg => exact h.checked rfl fun event he => hok read event hg he
      next => exact h
    | handOver =>
      dsimp only [Process.step]
      rcases p.handOver_cases lib window reader with ⟨event, number, -, hpc, -, -⟩ | ⟨hsys, -⟩
      · -- a loop in a select removes nothing
        refine .of_no (hs.free fun heq => ?_).2
        rw [heq] at hpc
        exact hpc
      · rw [hsys]
        exact h.same rfl rfl rfl
    | loopLook =>
      dsimp only [Process.step]
      split
      next hr => exact .of_no hr
      next => exact h
    | loopConfirm =>
      dsimp only [Process.step]
      split
      next read hc => exact rechecked (hs.checking (by rw [hc]; intro heq; cases heq)).2 rfl
      next => exact h
    | loopFetch =>
      dsimp only [Process.step]
      split
      next =>
        split
        next => exact fun name hname => of_decide_eq_true (List.mem_filter.mp hname).2
        next => exact h
      next => exact h
    | loop e =>
      dsimp only [Process.step, System.step]
      split
      next he => exact h.same rfl (p.sys.loop.step_own_deadlines he).1 rfl
      next => exact h
  | decide =>
    dsimp only [Process.step]
    split
    next authoritative hr => exact h.decided hr
    next => exact h
  | answer answer =>
    dsimp only [Process.step]
    split
    next confirmed name left backoff hr => exact h.answered hr answer
    next => exact h
  | retry =>
    dsimp only [Process.step]
    split
    next confirmed backoff hr =>
      intro name hname
      refine h name ?_
      unfold Process.atStake
      rw [hr]
      exact hname
    next => exact h

end Process.Spared

/-! ## What a delete can take -/

/-- On its own the loop writes rows and deletes none. -/
theorem Scheduler.step_own_store {lib : Libraries} (s : Scheduler) {e : Event} (he : e.own = true)
    (h : s.store.get? name ≠ none) : (s.step lib window e).store.get? name ≠ none := by
  have hset : ∀ job row, (s.store.set job row).get? name ≠ none := by
    intro job row
    rw [Table.get?_set]
    split
    next => exact Option.some_ne_none row
    next => exact h
  have hm : s.Moves lib window e (s.step lib window e) := Scheduler.step_moves s e
  generalize s.step lib window e = s' at hm
  cases hm with
  | settles => cases he
  | rechecks => cases he
  | records => exact hset _ _
  | supersedes => exact hset _ _
  | _ => exact h

/-- Only the rows that are being deleted can be lost. -/
theorem Process.Sound.row_kept [DecidableEq Sig] {lib : Libraries} {reader : Reader Content Sig}
    {p : Process Content Sig} (hs : p.Sound window) (o : Occurrence Content)
    (h : p.sys.loop.store.get? name ≠ none) (hname : name ∉ p.removing.names) :
    (p.step lib window reader o).sys.loop.store.get? name ≠ none := by
  cases o with
  | system act =>
    cases act with
    | write file => exact h
    | look =>
      dsimp only [Process.step, System.step]
      split
      next => split <;> exact h
      next => exact h
    | confirm =>
      dsimp only [Process.step, System.step]
      split
      next read _ =>
        generalize p.sys.watcher.conclude reader read p.sys.file = concluded
        obtain ⟨w, outcome⟩ := concluded
        cases outcome <;> exact h
      next => exact h
    | handOver =>
      dsimp only [Process.step]
      rcases p.handOver_cases lib window reader with ⟨event, number, -, hpc, hsys, -⟩ | ⟨hsys, -⟩
      · have hloop : (p.sys.handed lib window event number).loop =
            { p.sys.loop.applyReload window event with pc := .planning } :=
          @Scheduler.step_reload lib window _ hpc hs.opened event
        rw [hsys, hloop]
        exact h
      · rw [hsys]
        exact h
    | loopLook =>
      dsimp only [Process.step]
      split
      next =>
        dsimp only [System.step]
        split
        next => split <;> exact h
        next => exact h
      next => exact h
    | loopConfirm =>
      dsimp only [Process.step]
      split
      next read _ =>
        generalize p.sys.watcher.conclude reader read p.sys.file = concluded
        obtain ⟨w, outcome⟩ := concluded
        cases outcome <;> exact h
      next => exact h
    | loopFetch =>
      dsimp only [Process.step]
      split
      next => split <;> exact h
      next => exact h
    | loop e =>
      dsimp only [Process.step, System.step]
      split
      next he => exact p.sys.loop.step_own_store he h
      next => exact h
  | decide =>
    dsimp only [Process.step]
    split
    next =>
      dsimp only [Process.decided]
      split <;> exact h
    next => exact h
  | answer answer =>
    dsimp only [Process.step]
    split
    next confirmed first left backoff hr =>
      have herase : (p.sys.loop.store.erase first).get? name ≠ none := by
        have hne : name ≠ first := by
          rintro rfl
          refine hname ?_
          rw [hr]
          exact hs.left _ _ _ hr List.mem_cons_self
        rw [Table.get?_erase, if_neg hne]
        exact h
      cases answer with
      | failed tookEffect =>
        cases tookEffect
        · exact h
        · exact herase
      | deleted => cases left <;> exact herase
    next => exact h
  | retry =>
    dsimp only [Process.step]
    split <;> exact h

end Runs

/-- A row is lost only while rows are being deleted, and then to a job that the loop has been
without for as long as a removal has to be confirmed: every configuration it has had in force
since lacks the job.  As long as the watcher accepts no configuration that declares a job at
stake, the job is absent from the watcher's configuration as well. -/
theorem deletes_only_absent {Content Sig : Type} [DecidableEq Sig] (lib : Libraries) (window : Int)
    (reader : Reader Content Sig) (file : FileRead Content) (running : Config) (seen : Option Sig) (store : States)
    (clock : Int) (os : List (Occurrence Content)) :
    let p := os.foldl (Process.step lib window reader) (.start file running seen store clock)
    (∀ o name, p.sys.loop.store.get? name ≠ none → (p.step lib window reader o).sys.loop.store.get? name = none →
      name ∈ p.removing.names) ∧
    p.inForce.getLast?.map Prod.snd = some p.sys.loop.config ∧
    (∀ name ∈ p.removing.names, ∃ t, t + confirmWindow window ≤ p.sys.loop.clock ∧ AbsentSince p.inForce t name) ∧
    (Permitted (Process.step lib window reader) (Undisturbed reader) (.start file running seen store clock) os →
      ∀ name ∈ p.removing.names, name ∉ p.sys.watcher.current.names) := by
  intro p
  have hsound : p.Sound window := (Process.Sound.start file running seen store clock).run os
  refine ⟨fun o name hrow hlost => ?_, hsound.last, fun name hname => ?_, fun hos name hname => ?_⟩
  · by_contra hnot
    exact hsound.row_kept o hrow hnot hlost
  · obtain ⟨deadline, hget, hle⟩ := hsound.due name hname
    exact ⟨deadline - confirmWindow window, by omega, hsound.parked name deadline hget⟩
  · have hstep : ∀ (q : Process Content Sig) o, Undisturbed reader q o → q.Sound window ∧ q.Spared →
        (q.step lib window reader o).Sound window ∧ (q.step lib window reader o).Spared :=
      fun q o hok h => ⟨h.1.step o, h.2.step o hok h.1⟩
    refine (hos.inv hstep ⟨.start file running seen store clock, .of_no rfl⟩).2 name ?_
    show name ∈ p.atStake
    unfold Process.atStake
    cases hr : p.removing with
    | no =>
      rw [hr] at hname
      cases hname
    | deciding authoritative =>
      rw [hr] at hname
      cases hname
    | deleting confirmed left backoff =>
      rw [hr] at hname
      exact hname
    | pausing confirmed backoff =>
      rw [hr] at hname
      exact hname

/-! ## Two runs -/

/-- Job `b` has a row, and a removal that is due; the first delete of its row fails. -/
def failedDelete : List (Occurrence Config) :=
  (dropB ++ [Act.loop .confirm, .loopLook, .loopFetch]).map .system ++ [.decide, .answer (.failed false)]

def rowOfB : States := Table.empty.set "b" ⟨1, 1, [1]⟩

/-- The same with no failure. -/
theorem removal_of_b_settles :
    ∃ n, ((Occurrence.decide :: .replicate n (.answer .deleted)).foldl (Process.step hourly 0 plainReader)
      ((failedDelete.take 10).foldl (Process.step hourly 0 plainReader)
        (.start (.ok withB) withB (some (some withB)) rowOfB 1))).sys.loop.store.get? "b" = none := by
  generalize hp : (failedDelete.take 10).foldl _ _ = p
  obtain ⟨n, hn⟩ := undisturbed_removal_settles (p := p) (hp ▸ rfl : p.removing = .deciding withoutB)
  refine ⟨n, ?_⟩
  rw [hn, ← hp]
  decide +kernel

/-- A second attempt is made, and nothing has changed. -/
theorem retried_delete_absent :
    ((failedDelete ++ [Occurrence.retry]).foldl (Process.step hourly 0 plainReader)
        (.start (.ok withB) withB (some (some withB)) rowOfB 1)).removing.names = ["b"] ∧
      "b" ∉ ((failedDelete ++ [Occurrence.retry]).foldl (Process.step hourly 0 plainReader)
        (.start (.ok withB) withB (some (some withB)) rowOfB 1)).sys.watcher.current.names := by
  have h := deletes_only_absent hourly 0 plainReader (.ok withB) withB (some (some withB)) rowOfB 1
    (failedDelete ++ [.retry])
  refine ⟨by decide +kernel, h.2.2.2 ?_ "b" (by decide +kernel)⟩
  exact ⟨trivial, trivial, trivial, (fun _ _ _ _ _ hname => by cases hname), trivial, trivial, trivial, trivial, trivial,
    trivial, trivial, trivial, trivial, trivial⟩

/-- Between the attempts the file brings the job back, and the watcher accepts it; the second
attempt deletes the row of a job that is in the watcher's configuration, and that the loop is
about to take over. -/
def broughtBack : Process Config (Option Config) :=
  (failedDelete ++ [Occurrence.system (.write (.ok withB)), .system .look, .system .confirm, .retry]).foldl
    (Process.step hourly 0 plainReader) (.start (.ok withB) withB (some (some withB)) rowOfB 1)

theorem readded_job_loses_row :
    broughtBack.sys.watcher.current = withB ∧ "b" ∈ broughtBack.sys.watcher.current.names ∧
      broughtBack.sys.loop.store.get? "b" = some ⟨1, 1, [1]⟩ ∧
      (broughtBack.step hourly 0 plainReader (.answer .deleted)).sys.loop.store.get? "b" = none := by
  decide +kernel

end FactorQ.Cron
