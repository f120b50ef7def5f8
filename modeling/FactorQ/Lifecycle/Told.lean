/-
# `FactorQ.Lifecycle.Told` — an ended invocation says so on the log

An invocation has ended for good once its row is terminal: recovery looks at open
rows only, and the sweeper hands a terminal row over whatever the log says.  So the
event that tells how it ended must not get lost after the row is closed.

On a failure of the host the event comes first.  On a completion, and on a failure
the reducer asks for, the row is closed by the write of the step and the event comes
after it.  In between the row is terminal and nothing has been told: this is the
window.  As long as the process does not stop there, and the publish there does not
fail, everything that is ever derived from a terminal row (the hand-off, the owner's
status, the ack, the deletion) has been told; otherwise all of it happens in silence.
-/
import FactorQ.Lib.Interleave
import FactorQ.Reducer.Ending
import FactorQ.Lifecycle.Life

namespace FactorQ.Lifecycle

open Lib Reducer Wal

variable {cfg : HostConfig} {h h' : Host} {e : Env} {l l' : Life}

/-! ## What is told -/

/-- The events that tell how an invocation ended. -/
def Event.tells : Event → Bool
  | .completed | .failed _ _ | .operatorRecovered _ => true
  | _ => false

def Told (events : List Event) : Prop := ∃ ev ∈ events, Event.tells ev = true

instance (events : List Event) : Decidable (Told events) :=
  inferInstanceAs (Decidable (∃ ev ∈ events, Event.tells ev = true))

theorem Told.mono {events events' : List Event} (h : Told events) (hsub : events ⊆ events') : Told events' := by
  obtain ⟨ev, hmem, hev⟩ := h
  exact ⟨ev, hsub hmem, hev⟩

theorem told_emit {events : List Event} {ev : Event} (hev : Event.tells ev = true) : Told (events ++ [ev]) :=
  ⟨ev, List.mem_append_right _ (List.mem_singleton_self _), hev⟩

/-- The row is closed and nothing has been told yet. -/
def Pc.inWindow : Pc → Bool
  | .completing | .failing none _ none false => true
  | _ => false

/-- It has been told, or is about to be. -/
def Said (h : Host) : Prop := Told h.events ∨ Pc.inWindow h.pc = true

/-! ## The loop -/

structure HostSays (h : Host) : Prop where
  ended : h.wal.Ended → Said h
  published : ∀ p kind call, h.pc = .failing p kind call true → Told h.events
  archived : ∀ phase, .archived phase ∈ h.events → Said h

theorem Move.events_subset (m : Host.Move cfg e h h') : h.events ⊆ h'.events := by
  cases m with
  | announced | failed | completed | archived => exact List.subset_append_left _ _
  | overrun | drained | noticed | suspended | rejected | reduced | called | replied | refused | rateLimited | broken
  | overspent | advanced | stamped | unstamped | putDown | toolWent | toolAborted | toolAnswered | roundDone | lost
  | ended | kept | handedOff | idle =>
    exact List.Subset.refl _

theorem Move.window (m : Host.Move cfg e h h') (hw : Pc.inWindow h.pc = true) : Told h'.events := by
  cases m with
  | completed pc => exact told_emit rfl
  | failed p kind call pc => exact told_emit rfl
  | lost running _ =>
    exfalso
    cases hpc : h.pc with
    | completing | failing =>
      rw [hpc] at running
      cases running
    | boundary | noticing | model | answered | deferring | stamped | announcing | tools | handingOff | finished =>
      rw [hpc] at hw
      cases hw
  | overrun p carried pc | drained p carried pc | suspended p carried pc | rejected p carried pc
  | overspent p next r pc | advanced p next r pc _ | noticed p carried n pending pc _ _ _
  | reduced p carried out pc _ _ | called p next pc _ | replied p next r pc _ | refused p next pc _
  | rateLimited p next id text pc _ | broken p next id text pc _ | stamped p id pc _ | unstamped p id pc _
  | putDown p pc | announced p pc | toolWent p next done req rest pc _ | toolAborted p next done req rest r pc _
  | toolAnswered p next done req req' rest r pc _ | roundDone p next done req r pc _ | archived o pc _ | kept o pc _
  | handedOff o pc | idle o pc =>
    rw [pc] at hw
    cases hw
  | ended p kind call pc =>
    rw [pc] at hw
    cases p <;> cases call <;> cases hw

theorem Move.said (m : Host.Move cfg e h h') (hs : Said h) : Said h' := by
  rcases hs with ht | hw
  · exact .inl (ht.mono (Move.events_subset m))
  · exact .inl (Move.window m hw)

/-- A step closes the row only on the way into the window. -/
theorem said_reduced {p : Point} {out : StepOutput} {pc' : Pc} {spent : ℚ} {w : Wal} (now : Int)
    (hperf : Performs cfg spent p out pc') (hopen : ¬ w.Ended)
    (hended : (w.upsertInvocationState (Host.rowOf p out now)).Ended) : Pc.inWindow pc' = true := by
  have hending := (hperf.ending hopen now).ended hended
  cases hperf with
  | completed | failed => rfl
  | exhausted q action =>
    exfalso
    obtain ⟨pending, hp⟩ := upsert_of_open hopen (Host.rowOf p out now)
    obtain ⟨row, hr, ht⟩ := hended
    rw [hp] at hr
    cases hr
    change (phaseAndTerminalFrom out.nextAction now).2.isSome = true at ht
    rw [action] at ht
    cases ht
  | model | tools => cases hending

theorem hostSays_move (m : Host.Move cfg e h h') (hs : HostSays h) : HostSays h' := by
  have hsaid := Move.said m
  refine ⟨?_, ?_, ?_⟩
  · intro hended
    have hold : h.wal.Ended → Said h' := fun hw => hsaid (hs.ended hw)
    cases m with
    | reduced p carried out pc step performs =>
      by_cases hopen : h.wal.Ended
      · exact hold hopen
      · exact .inr (said_reduced e.now performs hopen hended)
    | putDown p pc =>
      by_cases hopen : h.wal.Ended
      · exact hold hopen
      · exfalso
        obtain ⟨row, hr, ht⟩ := hended
        rcases markDeferred_state hopen with hnone | ⟨row', hr', -, ht'⟩
        · cases hnone.symm.trans hr
        · cases hr'.symm.trans hr
          rw [ht'] at ht
          cases ht
    | ended p kind call pc => exact .inl (hs.published p kind call pc)
    | handedOff o pc => exact hold (setArchivePending_ended.mp hended)
    | called p next pc m | replied p next r pc m | refused p next pc m | rateLimited p next id text pc m
    | broken p next id text pc m =>
      obtain ⟨row, hr, ht⟩ := hended
      exact hold ⟨row, m.state ▸ hr, ht⟩
    | toolWent p next done req rest pc m | toolAborted p next done req rest r pc m
    | toolAnswered p next done req req' rest r pc m | roundDone p next done req r pc m =>
      obtain ⟨row, hr, ht⟩ := hended
      exact hold ⟨row, m.state ▸ hr, ht⟩
    | stamped p id pc stamp =>
      obtain ⟨row, hr, ht⟩ := hended
      exact hold ⟨row, (markLlmDeferred_spec stamp).1.state ▸ hr, ht⟩
    | noticed p carried n pending pc _ _ insert =>
      obtain ⟨row, hr, ht⟩ := hended
      rw [insertHostNotice_spec insert] at hr
      exact hold ⟨row, hr, ht⟩
    | overrun | drained | suspended | rejected | overspent | advanced | unstamped | announced | lost | failed
    | completed | archived | kept | idle =>
      exact hold hended
  · intro p kind call hpc
    cases m with
    | failed => exact told_emit rfl
    | reduced p carried out pc step performs => cases performs <;> cases hpc
    | idle o pc => exact hs.published p kind call hpc
    | overrun | drained | noticed | suspended | rejected | called | replied | refused | rateLimited | broken
    | overspent | advanced | stamped | unstamped | putDown | announced | toolWent | toolAborted | toolAnswered
    | roundDone | lost | ended | completed | archived | kept | handedOff =>
      cases hpc
  · intro phase hmem
    have hold : .archived phase ∈ h.events → Said h' := fun hin => hsaid (hs.archived phase hin)
    have hemit : ∀ ev, .archived phase ∈ h.events ++ [ev] → ev ≠ .archived phase → Said h' := by
      intro ev hin hne
      rcases List.mem_append.mp hin with hin | hnew
      · exact hold hin
      · exact absurd (List.mem_singleton.mp hnew).symm hne
    cases m with
    | announced p pc => exact hemit _ hmem Event.noConfusion
    | failed p kind call pc => exact hemit _ hmem Event.noConfusion
    | completed pc => exact hemit _ hmem Event.noConfusion
    | archived o pc terminal =>
      obtain ⟨row, hr, ht⟩ := (Option.any_eq_true _ _).mp terminal
      exact hsaid (hs.ended ⟨row, hr, ht⟩)
    | overrun | drained | noticed | suspended | rejected | reduced | called | replied | refused | rateLimited | broken
    | overspent | advanced | stamped | unstamped | putDown | toolWent | toolAborted | toolAnswered | roundDone | lost
    | ended | kept | handedOff | idle =>
      exact hold hmem

theorem Said.told (hs : Said h) (hw : Pc.inWindow h.pc = false) : Told h.events := by
  refine hs.resolve_right fun htrue => ?_
  rw [hw] at htrue
  cases htrue

/-- The incarnation is gone, outside the window, and no other thing has changed. -/
theorem HostSays.out (hs : HostSays h) (hw : Pc.inWindow h.pc = false) (hwal : h'.wal.Ended → h.wal.Ended)
    (hev : h'.events = h.events) (hpc : ∀ p kind call, h'.pc ≠ .failing p kind call true) : HostSays h' where
  ended := fun hended => .inl (hev ▸ (hs.ended (hwal hended)).told hw)
  published := fun p kind call hp => absurd hp (hpc p kind call)
  archived := fun phase hmem => .inl (hev ▸ (hs.archived phase (hev ▸ hmem)).told hw)

theorem hostSays_resumes (m : Host.Resumes cfg h h') (hs : HostSays h) : HostSays h' := by
  cases m with
  | refused => exact hs
  | failure o id message pc | overspent o p pc | entered o p pc =>
    exact hs.out (pc ▸ rfl) (fun hended => hended) rfl (by simp)

theorem Resumes.events (m : Host.Resumes cfg h h') : h'.events = h.events := by
  cases m <;> rfl

theorem Resumes.said (m : Host.Resumes cfg h h') (hs : Said h) : Said h' := by
  cases m with
  | refused => exact hs
  | failure o id message pc | overspent o p pc | entered o p pc => exact .inl (hs.told (pc ▸ rfl))

theorem hostSays_inject (render : Int → String) (hs : HostSays h) : HostSays (h.inject render) := by
  rcases Host.inject_cases (h := h) render with heq | ⟨o, pc, heq⟩
  · rw [heq]
    exact hs
  · rw [heq]
    refine hs.out (pc ▸ rfl) ?_ rfl (by simp [Host.store, pc])
    rintro ⟨row, hr, ht⟩
    exact ⟨row, (injectInterruptedResults_spec _ _).2 ▸ hr, ht⟩

/-! ## The other actors -/

/-- What the consumer is busy with has been told. -/
def Consumer.Says (h : Host) : Consumer → Prop
  | .idle | .marking => True
  | .archiving _ | .deciding _ _ | .acking => Said h
  | .recovering _ | .closing _ => Told h.events

structure LifeSays (l : Life) : Prop where
  host : HostSays l.host
  held : ∀ row, l.held = some row → row.terminalAt = none
  owner : l.owner.any OwnerStatus.isTerminal = true → Said l.host
  sweeper : ∀ phase, l.sweeper = .publishing phase → Said l.host
  consumer : l.consumer.Says l.host
  acks : 0 < l.acks → Said l.host
  deleted : l.deleted = true → Said l.host

theorem Consumer.Says.mono {c : Consumer} (hc : c.Says h) (hsaid : Said h → Said h')
    (hev : h.events ⊆ h'.events) : c.Says h' := by
  cases c with
  | idle | marking => trivial
  | archiving | deciding | acking => exact hsaid hc
  | recovering | closing => exact Told.mono hc hev

theorem LifeSays.host_move (hs : LifeSays l) (hh : HostSays l'.host) (hsaid : Said l.host → Said l'.host)
    (hev : l.host.events ⊆ l'.host.events) (hheld : l'.held = l.held) (howner : l'.owner = l.owner) (hsweep : l'.sweeper = l.sweeper)
    (hcons : l'.consumer = l.consumer) (hacks : l'.acks = l.acks) (hdel : l'.deleted = l.deleted) :
    LifeSays l' where
  host := hh
  held := hheld ▸ hs.held
  owner := fun h => hsaid (hs.owner (howner ▸ h))
  sweeper := fun phase h => hsaid (hs.sweeper phase (hsweep ▸ h))
  consumer := hcons ▸ hs.consumer.mono hsaid hev
  acks := fun h => hsaid (hs.acks (hacks ▸ h))
  deleted := fun h => hsaid (hs.deleted (hdel ▸ h))

theorem HostSays.emit {ev : Event} (hs : HostSays h) (hne : ∀ phase, ev = .archived phase → Said h) :
    HostSays (h.emit ev) := by
  have hsaid : Said h → Said (h.emit ev) := fun hsd =>
    hsd.imp_left fun ht => ht.mono (List.subset_append_left _ _)
  refine ⟨fun hended => hsaid (hs.ended hended), ?_, ?_⟩
  · intro p kind call hpc
    exact (hs.published p kind call hpc).mono (List.subset_append_left _ _)
  · intro phase hmem
    rcases List.mem_append.mp hmem with hin | hnew
    · exact hsaid (hs.archived phase hin)
    · exact hsaid (hne phase (List.mem_singleton.mp hnew).symm)

theorem said_emit (ev : Event) (hs : Said h) : Said (h.emit ev) :=
  hs.imp_left fun ht => ht.mono (List.subset_append_left _ _)

theorem HostSays.store {w : Wal} (hs : HostSays h) (hw : w.Ended → Said h) : HostSays (h.store w) :=
  ⟨hw, hs.published, hs.archived⟩

theorem LifeSays.publish {ev : Event} (hs : LifeSays l) (hne : ∀ phase, ev = .archived phase → Said l.host) :
    LifeSays (l.emit ev) :=
  hs.host_move (hs.host.emit hne) (said_emit ev) (List.subset_append_left _ _) rfl rfl rfl rfl rfl rfl

theorem LifeSays.publishAmbiguousOnce (hs : LifeSays l) (stamped published : Bool) :
    LifeSays (l.publishAmbiguousOnce stamped published) := by
  have hrep : LifeSays (if stamped then { l with reported := true } else l) := by
    split
    · exact hs.host_move hs.host (fun h => h) (List.Subset.refl _) rfl rfl rfl rfl rfl rfl
    · exact hs
  unfold Life.publishAmbiguousOnce
  split
  · exact hs
  · dsimp only
    split
    · exact hrep.publish fun phase heq => by cases heq
    · exact hrep

/-- Nothing is stopped between the close of the row and the event. -/
def Undisturbed (l : Life) : LifeAction → Prop
  | .crash | .abort => Pc.inWindow l.host.pc = false
  | _ => True

instance : ∀ (l : Life) (a : LifeAction), Decidable (Undisturbed l a)
  | l, .crash | l, .abort => inferInstanceAs (Decidable (Pc.inWindow l.host.pc = false))
  | _, .work _ | _, .resume | _, .inject _ | _, .reconcile _ | _, .classify _ _ | _, .report _ _ | _, .sweep
  | _, .sweepFails | _, .deliver _ | _, .handle _ | _, .nak | _, .ack | _, .drop _ => .isTrue trivial

theorem lifeSays_crash (hs : LifeSays l) (hw : Pc.inWindow l.host.pc = false) : LifeSays l.crash := by
  have hout : Said l.host → Said l.host.crash := fun hsd => .inl (hsd.told hw)
  refine ⟨?_, nofun, fun h => hout (hs.owner h), nofun, trivial, nofun, fun h => hout (hs.deleted h)⟩
  exact hs.host.out hw (fun hended => hended) rfl fun _ _ _ => Pc.noConfusion

theorem lifeSays_reconcile (now : Int) (hs : LifeSays l) : LifeSays (l.reconcile now) := by
  unfold Life.reconcile
  split
  · next status _ howner =>
    split
    · next hterm =>
      have hsaid : Said l.host := hs.owner (by rw [howner]; exact hterm)
      exact ⟨hs.host.store fun _ => hsaid, hs.held, hs.owner, hs.sweeper,
        hs.consumer.mono (fun h => h) (List.Subset.refl _), hs.acks, hs.deleted⟩
    · exact hs
  · exact hs

theorem lifeSays_classify (stamped published : Bool) (hs : LifeSays l) :
    LifeSays (l.classify stamped published) := by
  unfold Life.classify
  split
  · exact hs
  · split
    · exact hs.publishAmbiguousOnce stamped published
    · exact ⟨hs.host, hs.held, nofun, hs.sweeper, hs.consumer, hs.acks, hs.deleted⟩

section

variable (hs : LifeSays l)
include hs

theorem lifeSays_sweep : LifeSays l.sweep := by
  unfold Life.sweep
  split
  · split
    · next row hrow =>
      split
      · next hterm =>
        have hsaid : Said l.host := hs.host.ended ⟨row, hrow, hterm⟩
        exact ⟨hs.host, hs.held, hs.owner, fun _ _ => hsaid, hs.consumer, hs.acks, hs.deleted⟩
      · exact hs
    · exact hs
  · next phase hsw =>
    have hpub : LifeSays (l.emit (.archived phase)) := hs.publish fun _ _ => hs.sweeper phase hsw
    exact ⟨hpub.host, hpub.held, hpub.owner, nofun, hpub.consumer, hpub.acks, hpub.deleted⟩
  · refine ⟨hs.host.store fun hended => hs.host.ended (setArchivePending_ended.mp hended), hs.held, hs.owner,
      nofun, ?_, hs.acks, hs.deleted⟩
    exact hs.consumer.mono (fun h => h) (List.Subset.refl _)

theorem lifeSays_deliver {ev : Event} (hmem : ev ∈ l.host.events) : LifeSays (l.deliver ev) := by
  unfold Life.deliver
  split
  · exact ⟨hs.host, hs.held, hs.owner, hs.sweeper, trivial, hs.acks, hs.deleted⟩
  · next phase _ => exact ⟨hs.host, hs.held, hs.owner, hs.sweeper, hs.host.archived phase hmem, hs.acks, hs.deleted⟩
  · next phase _ => exact ⟨hs.host, hs.held, hs.owner, hs.sweeper, ⟨_, hmem, rfl⟩, hs.acks, hs.deleted⟩
  · exact hs

theorem lifeSays_handle {now : Int} : LifeSays (l.handle now) := by
  have hcons := hs.consumer
  unfold Life.handle
  split
  · exact hs
  · exact ⟨hs.host, hs.held, nofun, hs.sweeper, trivial, hs.acks, hs.deleted⟩
  · next hc =>
    rw [hc] at hcons
    exact ⟨hs.host, hs.held, hs.owner, hs.sweeper, hcons, hs.acks, hs.deleted⟩
  · next hc =>
    rw [hc] at hcons
    split
    · exact ⟨hs.host, hs.held, hs.owner, hs.sweeper, hcons, hs.acks, hs.deleted⟩
    · exact ⟨hs.host, hs.held, fun _ => hcons, hs.sweeper, hcons, hs.acks, hs.deleted⟩
  · next hc =>
    rw [hc] at hcons
    exact ⟨hs.host, hs.held, hs.owner, hs.sweeper, trivial, fun _ => hcons, hs.deleted⟩
  · next hc =>
    rw [hc] at hcons
    exact ⟨hs.host, hs.held, fun _ => .inl hcons, hs.sweeper, hcons, hs.acks, hs.deleted⟩
  · next hc =>
    rw [hc] at hcons
    exact ⟨hs.host.store fun _ => .inl hcons, hs.held, hs.owner, hs.sweeper, trivial, hs.acks, hs.deleted⟩

theorem lifeSays_ack : LifeSays l.ack := by
  unfold Life.ack
  split
  · exact hs
  · next n hn =>
    have hsaid : Said l.host := hs.acks (by omega)
    refine ⟨hs.host.store ?_, hs.held, hs.owner, hs.sweeper, hs.consumer.mono (fun h => h) (List.Subset.refl _),
      fun _ => hsaid, fun _ => hsaid⟩
    rintro ⟨row, hr, -⟩
    cases hr

theorem lifeSays_drop {live : Bool} : LifeSays (l.drop live) := by
  have hpub : LifeSays (l.emit (.operatorRecovered .failed)) := hs.publish fun _ => Event.noConfusion
  unfold Life.drop
  split
  · exact hpub
  · split
    · exact ⟨hpub.host, hpub.held, hpub.owner, hpub.sweeper, hpub.consumer, hpub.acks, hpub.deleted⟩
    · exact hs

theorem lifeSays_drive (hh : HostSays h') (hsaid : Said l.host → Said h') (hev : l.host.events ⊆ h'.events) :
    LifeSays (l.drive h') :=
  hs.host_move hh hsaid hev rfl rfl rfl rfl rfl rfl

end

/-- The row `mark_deferred` writes is open, so it closes nothing. -/
theorem ended_of_deferred {w : Wal} {row : StateRow} (hrow : row.terminalAt = none)
    (hended : (w.upsertInvocationState { row with phase := .deferred }).Ended) : w.Ended := by
  by_contra hopen
  obtain ⟨pending, hp⟩ := upsert_of_open hopen { row with phase := .deferred }
  obtain ⟨row', hr, ht⟩ := hended
  rw [hp] at hr
  cases hr
  rw [show _ = row.terminalAt from rfl, hrow] at ht
  cases ht

theorem lifeSays_work {e : Env} (hs : LifeSays l) : LifeSays (l.work cfg e) := by
  have hleave : ∀ p, l.host.pc = .stamped p → Said l.host → Told l.host.events :=
    fun p hpc hsd => hsd.told (hpc ▸ rfl)
  unfold Life.work
  split
  · next p hpc _ =>
    split
    · next row hrow =>
      have hopen : row.terminalAt = none := by
        have hn := (Option.filter_eq_some_iff.mp hrow).2
        exact Option.isNone_iff_eq_none.mp hn
      exact ⟨hs.host, fun _ h => (Option.some.inj h) ▸ hopen, hs.owner, hs.sweeper, hs.consumer, hs.acks, hs.deleted⟩
    · exact lifeSays_drive hs (hs.host.out (hpc ▸ rfl) (fun hended => hended) rfl fun _ _ _ => Pc.noConfusion)
        (fun hsd => .inl (hleave p hpc hsd)) (List.Subset.refl _)
  · next p row hpc hheld =>
    have hdone : LifeSays (l.drive ((l.host.store (l.host.wal.upsertInvocationState
        { row with phase := .deferred })).goto (.announcing p))) :=
      lifeSays_drive hs
        (hs.host.out (hpc ▸ rfl) (ended_of_deferred (hs.held row hheld)) rfl fun _ _ _ => Pc.noConfusion)
        (fun hsd => .inl (hleave p hpc hsd)) (List.Subset.refl _)
    exact ⟨hdone.host, nofun, hdone.owner, hdone.sweeper, hdone.consumer, hdone.acks, hdone.deleted⟩
  · have m : Host.Move cfg _ l.host _ := Host.step_move (e := { e with suspend := e.suspend || l.halt })
    exact lifeSays_drive hs (hostSays_move m hs.host) (Move.said m) (Move.events_subset m)

theorem lifeSays_act {a : LifeAction} (hok : Undisturbed l a) (hs : LifeSays l) : LifeSays (l.act cfg a) := by
  have hup : LifeSays (l.actUp cfg a) := by
    cases a with
    | work e =>
      exact lifeSays_work hs
    | abort =>
      have hgone : LifeSays (l.drive l.host.crash) := lifeSays_drive hs (hs.host.out hok (fun hended => hended) rfl fun _ _ _ => Pc.noConfusion)
        (fun hsd => .inl (hsd.told hok)) (List.Subset.refl _)
      exact ⟨hgone.host, nofun, hgone.owner, hgone.sweeper, hgone.consumer, hgone.acks, hgone.deleted⟩
    | resume =>
      have m : Host.Resumes cfg l.host _ := Host.resume_resumes
      exact lifeSays_drive hs (hostSays_resumes m hs.host) (Resumes.said m) (Resumes.events m ▸ List.Subset.refl _)
    | inject render =>
      have hh := hostSays_inject render hs.host
      dsimp only [Life.actUp]
      rcases Host.inject_cases (h := l.host) render with heq | ⟨o, -, heq⟩
      · rw [heq] at hh ⊢
        exact lifeSays_drive hs hh id (List.Subset.refl _)
      · rw [heq] at hh ⊢
        exact lifeSays_drive hs hh id (List.Subset.refl _)
    | report stamped published =>
      dsimp only [Life.actUp]
      split
      · have hrep := hs.publishAmbiguousOnce stamped published
        exact ⟨hrep.host, hrep.held, hrep.owner, hrep.sweeper, hrep.consumer, hrep.acks, hrep.deleted⟩
      · exact hs
    | sweep => exact lifeSays_sweep hs
    | sweepFails => exact ⟨hs.host, hs.held, hs.owner, nofun, hs.consumer, hs.acks, hs.deleted⟩
    | deliver ev =>
      dsimp only [Life.actUp]
      split
      · next hmem => exact lifeSays_deliver hs hmem
      · exact hs
    | handle now => exact lifeSays_handle hs
    | nak => exact ⟨hs.host, hs.held, hs.owner, hs.sweeper, trivial, hs.acks, hs.deleted⟩
    | ack => exact lifeSays_ack hs
    | drop live => exact lifeSays_drop hs
    | crash | reconcile | classify => exact hs
  cases a with
  | crash => exact lifeSays_crash hs hok
  | reconcile now =>
    dsimp only [Life.act]
    split
    · have hrec := lifeSays_reconcile now hs
      exact ⟨hrec.host, hrec.held, hrec.owner, hrec.sweeper, hrec.consumer, hrec.acks, hrec.deleted⟩
    · exact hs
  | classify stamped published =>
    dsimp only [Life.act]
    split
    · have hcl := lifeSays_classify stamped published hs
      exact ⟨hcl.host, hcl.held, hcl.owner, hcl.sweeper, hcl.consumer, hcl.acks, hcl.deleted⟩
    · exact hs
  | work | abort | resume | inject | report | sweep | sweepFails | deliver | handle | nak | ack | drop =>
    dsimp only [Life.act]
    split
    · exact hup
    · exact hs

theorem lifeSays_init : LifeSays Life.init where
  held := nofun
  host := ⟨fun ⟨_, hr, _⟩ => (nomatch hr), fun _ _ _ hpc => (nomatch hpc), fun _ hmem => (nomatch hmem)⟩
  owner := nofun
  sweeper := nofun
  consumer := trivial
  acks := nofun
  deleted := nofun

/-! ## Every life -/

/-- In a life that is never stopped between the close of a row and the event, an
invocation whose row is terminal, or was archived and deleted, has told how it ended,
once its loop is through with it. -/
theorem ended_invocation_told (cfg : HostConfig) (schedule : List LifeAction)
    (hok : Permitted (Life.act cfg) Undisturbed Life.init schedule)
    (hend : (Life.init.run cfg schedule).host.wal.Ended ∨ (Life.init.run cfg schedule).deleted = true)
    (hout : Pc.inWindow (Life.init.run cfg schedule).host.pc = false) :
    Told (Life.init.run cfg schedule).host.events := by
  have hs : LifeSays (Life.init.run cfg schedule) :=
    Permitted.inv (fun _ _ hok hs => lifeSays_act hok hs) hok lifeSays_init
  rcases hend with hended | hdel
  · exact (hs.host.ended hended).told hout
  · exact (hs.deleted hdel).told hout

/-- A turn that declares the outcome, and so ends the invocation. -/
def outcomeEnv : Env :=
  { sampleEnv [] with
    reply := .response
      ⟨[.toolCall ⟨"o", reportOutcomeToolName, .object [("status", .string "success")]⟩], .toolUse,
        ⟨0, 0, 0, 0, none, none, none⟩⟩ 1 }

/-- A restart: recovery, then the sweeper and the consumers archive and delete the row. -/
def archivingRestart : List LifeAction :=
  [.crash, .reconcile 1, .classify true true, .sweep, .sweep, .sweep, .deliver (.archived .completed),
    .handle 2, .handle 2, .handle 2, .ack]

/-- The process stops once the outcome is told, and the next one archives the invocation. -/
theorem archived_invocation_told :
    Told (Life.init.run sampleConfig (List.replicate 10 (.work outcomeEnv) ++ archivingRestart)).host.events :=
  ended_invocation_told sampleConfig (List.replicate 10 (.work outcomeEnv) ++ archivingRestart)
    (by decide +kernel) (.inr (by decide +kernel)) (by decide +kernel)

/-- Stopped one move earlier, the invocation is archived and deleted without a word. -/
theorem archived_in_silence :
    (Life.init.run sampleConfig (List.replicate 9 (.work outcomeEnv) ++ archivingRestart)).deleted = true ∧
      ¬ Told (Life.init.run sampleConfig (List.replicate 9 (.work outcomeEnv) ++ archivingRestart)).host.events := by
  decide +kernel

end FactorQ.Lifecycle
