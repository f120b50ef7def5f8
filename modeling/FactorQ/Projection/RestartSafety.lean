/-
# `FactorQ.Projection.RestartSafety` — which crashes a start survives

What a start may find is said in one place (`Found`): a new file, an older one, one whose reset
is noted, one whose durable is in order, or one from which a durable will be created in order.
The invariant says for each step of a start what holds before it; a step keeps it, and a crash
takes it back to `Found`, unless it falls into one of the two windows.

That the two windows are excluded no further than needed is the last part: a crash in one of
them, where `CrashOk` does not hold, is followed by a start that completes and misses a message,
or delivers one below the floor.
-/
import FactorQ.Projection.Restart

namespace FactorQ.Projection

/-! ## Small facts -/

@[simp] theorem DeliverFrom.position_fromFloor (floor : Nat) : (fromFloor floor).position = floor := by
  unfold fromFloor
  split
  · next hzero => exact hzero.symm
  · rfl

namespace File

variable {stream : EventStream} {f : File} {m version : Nat}

theorem deliverFrom_of_none (h : f.rebuild = none) : f.deliverFrom = .beginning := by
  rw [deliverFrom, h]
  rfl

theorem deliverFrom_of_floor {r : RebuildRecord} {floor : Nat} (h : f.rebuild = some r) (hr : r.floorSeq = some floor) :
    f.deliverFrom = .fromFloor floor := by
  rw [deliverFrom, h, Option.bind_some, hr]
  rfl

theorem recordedVersion_create (h : f.recordedVersion = some version) (name : String) :
    (f.create name).recordedVersion = some version := by
  unfold recordedVersion at h ⊢
  split at h
  · next hevents => rw [create, if_pos (List.mem_insert_of_mem hevents), h]
  · cases h

/-- No row is kept of a transient message, so evicting them takes nothing the file is to have. -/
theorem lacks_evictTransients (h : (f.evictTransients stream).Lacks stream m) : f.Lacks stream m := by
  refine ⟨h.1, fun r hr hm => ?_⟩
  have hkept : r ∈ (f.evictTransients stream).rows := List.mem_filter.mpr ⟨hr, by rw [hm, h.1.2]; rfl⟩
  exact h.2 r hkept hm

/-- A record is complete only with the floor of this stream. -/
def RecordOk (stream : EventStream) (f : File) : Prop :=
  ∀ r, f.rebuild = some r → r.targetSeq = none ∨ r.floorSeq = some stream.floor

/-- The file has no record, or one that keeps the floor. -/
def RecordsFloor (stream : EventStream) (f : File) : Prop :=
  ∀ r, f.rebuild = some r → r.floorSeq = some stream.floor

/-- After the record is written it keeps the floor, if there is one. -/
theorem recordsFloor_writeRebuildRecord {pending : PendingFloor} (hrecord : f.RecordOk stream)
    (hpending : f.replayFloor = some pending) (hfloor : pending.floorSeq = stream.floor) (targetSeq : Nat)
    (deleted : Bool) : (f.writeRebuildRecord targetSeq deleted).RecordsFloor stream := by
  intro r hr
  dsimp only [writeRebuildRecord, completedRecord] at hr
  rw [hpending, Option.map_some, hfloor] at hr
  cases hold : f.rebuild with
  | none =>
    rw [hold] at hr
    cases deleted with
    | false => cases hr
    | true =>
      cases hr
      rfl
  | some old =>
    rw [hold] at hr
    dsimp only at hr
    split at hr
    · cases hr
      rfl
    · next htarget =>
      rw [← Option.some.inj hr]
      refine (hrecord old hold).resolve_left fun hnone => htarget ?_
      rw [hnone]
      rfl

end File

/-! ## What a start may find -/

/-- The position is such that a durable there delivers whatever the file lacks. -/
def File.Covered (stream : EventStream) (f : File) (position : Nat) : Prop := ∀ m, f.Lacks stream m → position ≤ m

namespace World

variable {stream : EventStream} {w : World}

/-- A file of the current version: its reset is noted, or its durable is in order, or a durable
created where the file says will be. -/
inductive Settled (stream : EventStream) (w : World) : Prop
  | pending {reason : String} (hnote : w.file.resetPending = some reason) (hrecord : w.file.RecordOk stream)
  | ready {d : Durable} (hnote : w.file.resetPending = none) (hdurable : w.durable = some d)
      (hcovered : w.file.Covered stream d.position)
  | waiting (hnote : w.file.resetPending = none) (hdurable : w.durable = none)
      (hcovered : w.file.Covered stream w.file.deliverFrom.position)
      (habove : w.reset = true → stream.Above w.file.deliverFrom.position)

/-- The file as a start finds it. -/
inductive Found (stream : EventStream) (w : World) : Prop
  | fresh (hversion : w.file.recordedVersion = none) (huser : w.file.userVersion = 0)
      (hrows : w.file.rows = []) (hnote : w.file.resetPending = none) (hrecord : w.file.rebuild = none)
  | older {version : Nat} (hversion : w.file.recordedVersion = some version) (hold : version < projectionSchemaVersion)
  | settled (hversion : w.file.recordedVersion = some projectionSchemaVersion) (h : w.Settled stream)

/-- A file being created, as long as nothing is noted in it. -/
structure Blank (w : World) : Prop where
  rows : w.file.rows = []
  note : w.file.resetPending = none
  record : w.file.rebuild = none
  reset : w.reset = true

/-- A file whose durable is being reset. -/
structure Resetting (stream : EventStream) (w : World) : Prop where
  version : w.file.recordedVersion = some projectionSchemaVersion
  note : ∃ reason, w.file.resetPending = some reason
  record : w.file.RecordOk stream

/-- The durable is gone, and the floor is the start's own or on record. -/
structure Detached (stream : EventStream) (w : World) : Prop where
  version : w.file.recordedVersion = some projectionSchemaVersion
  durable : w.durable = none
  reset : w.reset = true
  record : w.file.RecordsFloor stream

def Phase (stream : EventStream) (w : World) : Prop :=
  match w.pc with
  | .opening => w.Found stream
  | .creating left => w.Blank ∧ w.file.userVersion = 0 ∧ ("events" ∈ left ∨ "events" ∈ w.file.objects)
  | .noting => w.Blank ∧ w.file.recordedVersion = some projectionSchemaVersion
  | .bringing _ => w.file.recordedVersion = some projectionSchemaVersion ∧ w.Settled stream
  | .rebuilding version => w.file.recordedVersion = some version ∧ version < projectionSchemaVersion
  | .attaching => w.file.recordedVersion = some projectionSchemaVersion ∧ w.Settled stream
  | .flooring => w.Resetting stream
  | .deletingDurable floor =>
    w.Resetting stream ∧ floor = stream.floor ∧ ∃ p, w.file.replayFloor = some p ∧ p.floorSeq = stream.floor
  | .recording floor _ =>
    (w.Resetting stream ∧ floor = stream.floor ∧ ∃ p, w.file.replayFloor = some p ∧ p.floorSeq = stream.floor) ∧
      w.durable = none ∧ w.reset = true
  | .clearing floor => w.Detached stream ∧ (∃ reason, w.file.resetPending = some reason) ∧ floor = stream.floor
  | .creatingDurable deliverFrom =>
    w.file.resetPending = none ∧
      ((w.file.recordedVersion = some projectionSchemaVersion ∧ w.Settled stream ∧ deliverFrom = w.file.deliverFrom) ∨
        (w.Detached stream ∧ deliverFrom = .fromFloor stream.floor))
  | .running =>
    w.file.recordedVersion = some projectionSchemaVersion ∧ w.file.resetPending = none ∧
      ∃ d, w.durable = some d ∧ w.file.Covered stream d.position
  | .refused _ => False

structure Inv (stream : EventStream) (w : World) : Prop where
  phase : w.Phase stream
  durable : ∀ d, w.durable = some d → d.afterReset = true → stream.Above d.position

theorem Starting.inv (h : Starting stream w) : Inv stream w := by
  obtain ⟨file, durable, reset, pc⟩ := w
  obtain ⟨hfile, hdurable, hreset, hpc⟩ := h
  dsimp only at hfile hdurable hreset hpc
  subst hreset hpc
  refine ⟨?_, fun d hd hafter => ?_⟩
  · cases hfile with
    | fresh => exact Found.fresh rfl rfl rfl rfl rfl
    | older hversion hold => exact Found.older hversion hold
    | current hversion hnote howes =>
      refine Found.settled hversion ?_
      cases durable with
      | none => exact .waiting hnote rfl howes fun hreset => nomatch hreset
      | some d => exact .ready hnote rfl howes
    | interrupted hversion hnote hrecord =>
      obtain ⟨reason, hreason⟩ := Option.isSome_iff_exists.mp hnote
      exact Found.settled hversion (.pending hreason hrecord)
  · cases hafter.symm.trans (hdurable d hd)

/-! ## One step -/

/-- What a settled file is settled by is its notes and what it lacks. -/
theorem Settled.congr {w' : World} (h : w.Settled stream) (hnote : w'.file.resetPending = w.file.resetPending)
    (hrecord : w'.file.rebuild = w.file.rebuild) (hdurable : w'.durable = w.durable) (hreset : w'.reset = w.reset)
    (hlacks : ∀ m, w'.file.Lacks stream m → w.file.Lacks stream m) : w'.Settled stream := by
  have hfrom : w'.file.deliverFrom = w.file.deliverFrom := by rw [File.deliverFrom, File.deliverFrom, hrecord]
  cases h with
  | pending hpending hok => exact .pending (hnote.trans hpending) fun r hr => hok r (hrecord.symm.trans hr)
  | ready hnone hd hcovered =>
    exact .ready (hnote.trans hnone) (hdurable.trans hd) fun m hm => hcovered m (hlacks m hm)
  | waiting hnone hd hcovered habove =>
    refine .waiting (hnote.trans hnone) (hdurable.trans hd) ?_ ?_
    · rw [hfrom]
      exact fun m hm => hcovered m (hlacks m hm)
    · rw [hfrom, hreset]
      exact habove

/-- Nothing this build reads lies below the floor. -/
theorem covered_floor (hmono : stream.Monotone) (f : File) : f.Covered stream stream.floor :=
  fun _ hm => Stream.replayFloor_le hmono hm.1.1

theorem above_floor (stream : EventStream) : stream.Above stream.floor := fun _ _ hm => hm

theorem Inv.advance (hmono : stream.Monotone) (h : w.Inv stream) : (w.advance stream).Inv stream := by
  obtain ⟨file, durable, reset, pc⟩ := w
  obtain ⟨hphase, habove⟩ := h
  cases pc with
  | opening =>
    cases hphase with
    | fresh hversion huser hrows hnote hrecord =>
      dsimp only at hversion
      simp only [World.advance, hversion, checkCompatibility]
      exact ⟨⟨⟨hrows, hnote, hrecord, rfl⟩, huser, .inl List.mem_cons_self⟩, habove⟩
    | older hversion hold =>
      dsimp only at hversion
      simp only [World.advance, hversion, checkCompatibility, if_neg (Nat.ne_of_lt hold), if_pos hold]
      exact ⟨⟨hversion, hold⟩, habove⟩
    | settled hversion hsettled =>
      dsimp only at hversion
      simp only [World.advance, hversion, checkCompatibility, if_true]
      exact ⟨⟨hversion, hsettled.congr rfl rfl rfl rfl fun _ hm => hm⟩, habove⟩
  | creating left =>
    obtain ⟨hblank, huser, hevents⟩ := hphase
    cases left with
    | nil =>
      have hexists : "events" ∈ file.objects := hevents.resolve_left List.not_mem_nil
      exact ⟨⟨⟨hblank.rows, hblank.note, hblank.record, hblank.reset⟩, if_pos hexists⟩, habove⟩
    | cons name left =>
      refine ⟨⟨⟨hblank.rows, hblank.note, hblank.record, hblank.reset⟩, huser, ?_⟩, habove⟩
      rcases hevents with hleft | hexists
      · rcases List.mem_cons.mp hleft with rfl | hleft
        · exact .inr List.mem_insert_self
        · exact .inl hleft
      · exact .inr (List.mem_insert_of_mem hexists)
  | noting =>
    obtain ⟨hblank, hversion⟩ := hphase
    refine ⟨⟨hversion, .pending rfl fun r hr => ?_⟩, habove⟩
    cases hblank.record.symm.trans hr
  | bringing left =>
    obtain ⟨hversion, hsettled⟩ := hphase
    cases left with
    | nil => exact ⟨⟨hversion, hsettled.congr rfl rfl rfl rfl fun _ => File.lacks_evictTransients⟩, habove⟩
    | cons name left =>
      exact ⟨⟨File.recordedVersion_create hversion name, hsettled.congr rfl rfl rfl rfl fun _ hm => hm⟩, habove⟩
  | rebuilding version =>
    -- the new record is not complete
    refine ⟨⟨rfl, .pending rfl fun r hr => .inl ?_⟩, habove⟩
    cases hr
    rfl
  | attaching =>
    obtain ⟨hversion, hsettled⟩ := hphase
    cases hnote : file.resetPending with
    | none =>
      simp only [World.advance, hnote]
      exact ⟨⟨hnote, .inl ⟨hversion, hsettled.congr rfl rfl rfl rfl fun _ hm => hm, rfl⟩⟩, habove⟩
    | some reason =>
      simp only [World.advance, hnote]
      cases hsettled with
      | pending _ hrecord => exact ⟨⟨hversion, ⟨reason, hnote⟩, hrecord⟩, habove⟩
      | ready hnone => cases hnote.symm.trans hnone
      | waiting hnone => cases hnote.symm.trans hnone
  | flooring => exact ⟨⟨⟨hphase.version, hphase.note, hphase.record⟩, rfl, _, rfl, rfl⟩, habove⟩
  | deletingDurable floor =>
    obtain ⟨hresetting, hfloor, hpending⟩ := hphase
    exact ⟨⟨⟨⟨hresetting.version, hresetting.note, hresetting.record⟩, hfloor, hpending⟩, rfl, rfl⟩, nofun⟩
  | recording floor deleted =>
    obtain ⟨⟨hresetting, hfloor, p, hp, hpfloor⟩, hdurable, hreset⟩ := hphase
    have hrecord := File.recordsFloor_writeRebuildRecord hresetting.record hp hpfloor stream.lastSequence deleted
    exact ⟨⟨⟨hresetting.version, hdurable, hreset, hrecord⟩, hresetting.note, hfloor⟩, habove⟩
  | clearing floor =>
    obtain ⟨hdetached, -, rfl⟩ := hphase
    exact ⟨⟨rfl, .inr ⟨⟨hdetached.version, hdetached.durable, hdetached.reset, hdetached.record⟩, rfl⟩⟩, habove⟩
  | creatingDurable deliverFrom =>
    obtain ⟨hnote, ⟨hversion, hsettled, hfrom⟩ | ⟨hdetached, hfrom⟩⟩ := hphase
    · dsimp only at hfrom
      subst hfrom
      cases hsettled with
      | pending hpending => cases hnote.symm.trans hpending
      | ready _ hdurable hcovered =>
        dsimp only at hdurable
        subst hdurable
        exact ⟨⟨hversion, hnote, _, rfl, hcovered⟩, habove⟩
      | waiting _ hdurable hcovered hreset =>
        dsimp only at hdurable
        subst hdurable
        refine ⟨⟨hversion, hnote, _, rfl, hcovered⟩, fun d hd hafter => ?_⟩
        cases hd
        exact hreset hafter
    · have hdurable := hdetached.durable
      dsimp only at hdurable
      subst hdurable hfrom
      have hposition := DeliverFrom.position_fromFloor stream.floor
      refine ⟨⟨hdetached.version, hnote, _, rfl, ?_⟩, fun d hd hafter => ?_⟩
      · rw [Option.getD_none, hposition]
        exact covered_floor hmono file
      · cases hd
        rw [Option.getD_none, hposition]
        exact above_floor stream
  | running => exact ⟨hphase, habove⟩
  | refused version => exact hphase.elim

theorem Inv.crash (hmono : stream.Monotone) (hok : w.CrashOk stream) (h : w.Inv stream) :
    Inv stream { w with pc := .opening } := by
  obtain ⟨file, durable, reset, pc⟩ := w
  obtain ⟨hphase, habove⟩ := h
  refine ⟨?_, habove⟩
  change Found stream _
  cases pc with
  | opening => exact hphase
  | creating left =>
    obtain ⟨hblank, huser, hevents⟩ := hphase
    -- with its tables but no version, the file reads as one of version 0
    by_cases hexists : "events" ∈ file.objects
    · exact .older (if_pos hexists) (by rw [huser]; decide)
    · exact .fresh (if_neg hexists) huser hblank.rows hblank.note hblank.record
  | noting =>
    obtain ⟨hblank, hversion⟩ := hphase
    refine .settled hversion ?_
    have hfrom := File.deliverFrom_of_none hblank.record
    cases durable with
    | some d => exact .ready hblank.note rfl fun m hm => hok m hm.1
    | none =>
      refine .waiting hblank.note rfl ?_ fun _ m hm _ => hok m hm
      rw [hfrom]
      exact fun m _ => Nat.zero_le m
  | bringing left => exact .settled hphase.1 (hphase.2.congr rfl rfl rfl rfl fun _ hm => hm)
  | rebuilding version => exact .older hphase.1 hphase.2
  | attaching => exact .settled hphase.1 (hphase.2.congr rfl rfl rfl rfl fun _ hm => hm)
  | flooring => exact .settled hphase.version (.pending hphase.note.choose_spec hphase.record)
  | deletingDurable floor => exact .settled hphase.1.version (.pending hphase.1.note.choose_spec hphase.1.record)
  | recording floor deleted => exact .settled hphase.1.1.version (.pending hphase.1.1.note.choose_spec hphase.1.1.record)
  | clearing floor =>
    obtain ⟨hdetached, ⟨reason, hnote⟩, -⟩ := hphase
    exact .settled hdetached.version (.pending hnote fun r hr => .inr (hdetached.record r hr))
  | creatingDurable deliverFrom =>
    obtain ⟨hnote, ⟨hversion, hsettled, -⟩ | ⟨hdetached, -⟩⟩ := hphase
    · exact .settled hversion (hsettled.congr rfl rfl rfl rfl fun _ hm => hm)
    · refine .settled hdetached.version ?_
      cases hrecord : file.rebuild with
      | none =>
        have hfrom := File.deliverFrom_of_none hrecord
        refine .waiting hnote hdetached.durable ?_ fun _ m hm _ => ?_
        · rw [hfrom]
          exact fun m _ => Nat.zero_le m
        · exact hok hdetached.reset hdetached.durable hrecord m hm
      | some r =>
        have hfrom : file.deliverFrom.position = stream.floor := by
          rw [File.deliverFrom_of_floor hrecord (hdetached.record r hrecord), DeliverFrom.position_fromFloor]
        refine .waiting hnote hdetached.durable ?_ fun _ => ?_
        · rw [hfrom]
          exact covered_floor hmono file
        · rw [hfrom]
          exact above_floor stream
  | running =>
    obtain ⟨hversion, hnote, d, hd, hcovered⟩ := hphase
    exact .settled hversion (.ready hnote hd hcovered)
  | refused version => exact hphase.elim

theorem Inv.step (hmono : stream.Monotone) (w : World) (a : Action) (hok : w.StepOk stream a) (h : w.Inv stream) :
    (w.step stream a).Inv stream := by
  cases a with
  | advance => exact h.advance hmono
  | crash => exact h.crash hmono hok

/-! ## A start that is left alone completes -/

/-- A bound on the steps still to take. -/
def left (w : World) : Nat :=
  match w.pc with
  | .opening => schemaStatements.length + 9
  | .creating left => left.length + 8
  | .noting => 7
  | .bringing left => left.length + 7
  | .rebuilding _ => 7
  | .attaching => 6
  | .flooring => 5
  | .deletingDurable _ => 4
  | .recording .. => 3
  | .clearing _ => 2
  | .creatingDurable _ => 1
  | .running => 0
  | .refused _ => 0

theorem left_advance (h : 0 < w.left) : (w.advance stream).left < w.left := by
  obtain ⟨file, durable, reset, pc⟩ := w
  cases pc with
  | opening =>
    dsimp only [World.advance]
    split <;> simp [left]
  | creating names => cases names <;> simp [World.advance, left]
  | bringing names => cases names <;> simp [World.advance, left]
  | attaching =>
    dsimp only [World.advance]
    split <;> simp [left]
  | running => exact absurd h (Nat.lt_irrefl 0)
  | refused version => exact absurd h (Nat.lt_irrefl 0)
  | _ => simp [World.advance, left]

theorem running_of_left_eq_zero (h : w.Inv stream) (hleft : w.left = 0) : w.pc = .running := by
  obtain ⟨file, durable, reset, pc⟩ := w
  cases pc with
  | running => rfl
  | refused version => exact h.phase.elim
  | _ => simp [left] at hleft

theorem Inv.completes (hmono : stream.Monotone) (h : w.Inv stream) : ∃ n, ((World.advance stream)^[n] w).pc = .running := by
  induction hn : w.left using Nat.strong_induction_on generalizing w with
  | _ k ih =>
    rcases Nat.eq_zero_or_pos w.left with hzero | hpos
    · exact ⟨0, running_of_left_eq_zero h hzero⟩
    · obtain ⟨n, hrunning⟩ := ih _ (hn ▸ left_advance hpos) (h.advance hmono) rfl
      exact ⟨n + 1, hrunning⟩

/-! ## The other crashes do harm -/

/-- The durable delivers whatever this build reads and the file lacks. -/
def Delivers (stream : EventStream) (w : World) : Prop :=
  ∃ d, w.durable = some d ∧ ∀ m, w.file.Lacks stream m → d.position ≤ m

/-- A durable created after a reset, or on a new file, delivers nothing below the floor. -/
def KeepsFloor (stream : EventStream) (w : World) : Prop :=
  ∀ d, w.durable = some d → d.afterReset = true → ∀ m, stream.Holds m → d.position ≤ m → stream.floor ≤ m

/-- A current file without a note goes to the durable as it is. -/
theorem bringing_completes (stream : EventStream) (names : List String) : ∀ f : File, f.resetPending = none → ∀ durable reset,
    ∃ n f', (World.advance stream)^[n] ⟨f, durable, reset, .bringing names⟩ =
        ⟨f', some (durable.getD ⟨f.deliverFrom.position, reset⟩), reset, .running⟩ ∧
      f'.rows ⊆ f.rows := by
  induction names with
  | nil =>
    intro f hnote durable reset
    refine ⟨3, f.evictTransients stream, ?_, List.filter_subset_self _⟩
    simp only [Function.iterate_succ, Function.comp_apply, Function.iterate_zero, id_eq, World.advance,
      File.evictTransients, hnote]
    rfl
  | cons name names ih =>
    intro f hnote durable reset
    obtain ⟨n, f', hrun, hrows⟩ := ih (f.create name) hnote durable reset
    exact ⟨n + 1, f', hrun, hrows⟩

theorem opening_completes (stream : EventStream) {f : File} (hversion : f.recordedVersion = some projectionSchemaVersion)
    (hnote : f.resetPending = none) (durable : Option Durable) (reset : Bool) :
    ∃ n f', (World.advance stream)^[n] ⟨f, durable, reset, .opening⟩ =
        ⟨f', some (durable.getD ⟨f.deliverFrom.position, reset⟩), reset, .running⟩ ∧
      f'.rows ⊆ f.rows := by
  obtain ⟨n, f', hrun, hrows⟩ := bringing_completes stream schemaStatements f hnote durable reset
  refine ⟨n + 1, f', ?_, hrows⟩
  rw [Function.iterate_succ_apply, ← hrun]
  simp only [World.advance, hversion, checkCompatibility, if_true]

/-- A durable created at the beginning delivers what lies below the floor. -/
theorem floor_le_of_keepsFloor {f : File} (hrecord : f.rebuild = none)
    (hdurable : w.durable = some ⟨f.deliverFrom.position, true⟩) (hkeeps : w.KeepsFloor stream) (m : Nat)
    (hm : stream.Holds m) : stream.floor ≤ m := by
  refine hkeeps _ hdurable rfl m hm ?_
  rw [File.deliverFrom_of_none hrecord]
  exact Nat.zero_le m

/-- After a crash that `CrashOk` excludes, the next start completes without what is wanted. -/
theorem Inv.crash_harms (h : w.Inv stream) (hbad : ¬ w.CrashOk stream) :
    ∃ n w', (World.advance stream)^[n] (w.step stream .crash) = w' ∧ w'.pc = .running ∧
      ¬ (w'.Delivers stream ∧ w'.KeepsFloor stream) := by
  obtain ⟨file, durable, reset, pc⟩ := w
  have hphase := h.phase
  cases pc with
  | noting =>
    obtain ⟨hblank, hversion⟩ := hphase
    obtain ⟨n, f', hrun, hrows⟩ := opening_completes stream hversion hblank.note durable reset
    refine ⟨n, _, hrun, rfl, fun ⟨hdelivers, hkeeps⟩ => hbad ?_⟩
    cases durable with
    | some d =>
      obtain ⟨d', hd', hcovered⟩ := hdelivers
      cases hd'
      intro m hm
      refine hcovered m ⟨hm, fun r hr => ?_⟩
      have hnone : r ∈ file.rows := hrows hr
      rw [show file.rows = [] from hblank.rows] at hnone
      cases hnone
    | none =>
      have hreset : reset = true := hblank.reset
      subst hreset
      exact floor_le_of_keepsFloor hblank.record rfl hkeeps
  | creatingDurable deliverFrom =>
    have hversion : file.recordedVersion = some projectionSchemaVersion := by
      obtain ⟨-, ⟨hversion, -⟩ | ⟨hdetached, -⟩⟩ := hphase
      · exact hversion
      · exact hdetached.version
    obtain ⟨n, f', hrun, -⟩ := opening_completes stream hversion hphase.1 durable reset
    refine ⟨n, _, hrun, rfl, fun ⟨_, hkeeps⟩ => hbad fun hreset hdurable hrecord => ?_⟩
    dsimp only at hreset hdurable hrecord
    subst hreset hdurable
    exact floor_le_of_keepsFloor hrecord rfl hkeeps
  | _ => exact absurd trivial hbad

/-! ## Every run -/

/-- In every run of starts that crash only where `CrashOk` allows it: a start left alone
completes; where one has, the durable delivers whatever this build reads and the file lacks; and
a durable created after a reset, or on a new file, delivers nothing below the floor.  Any other
crash is one too many: the start after it completes without one of the two. -/
theorem restarts_reach_floor (stream : EventStream) (hmono : stream.Monotone) (w : World) (hstart : Starting stream w)
    (actions : List Action) (hok : Lib.Permitted (World.step stream) (World.StepOk stream) w actions) :
    let reached := actions.foldl (World.step stream) w
    (∃ n, ((World.advance stream)^[n] reached).pc = .running) ∧
    (reached.pc = .running → reached.Delivers stream) ∧
    reached.KeepsFloor stream ∧
    (¬ reached.CrashOk stream → ∃ n w', (World.advance stream)^[n] (reached.step stream .crash) = w' ∧
      w'.pc = .running ∧ ¬ (w'.Delivers stream ∧ w'.KeepsFloor stream)) := by
  intro reached
  have hinv : reached.Inv stream := hok.inv (Inv.step hmono) hstart.inv
  refine ⟨hinv.completes hmono, fun hrunning => ?_, hinv.durable, hinv.crash_harms⟩
  have hphase := hinv.phase
  rw [Phase, hrunning] at hphase
  exact hphase.2.2

/-- The old message at 5 cannot be read; the one at 8 is to be projected. -/
def fourEvents : EventStream where
  toStream := Stream.fourSequences
  transient _ := false

/-- A new file next to a durable that has acked the whole stream. -/
def newFile : World := ⟨.fresh, some ⟨9, false⟩, false, .opening⟩

theorem newFile_starting : Starting fourEvents newFile := by
  refine ⟨.fresh, fun d hd => ?_, rfl, rfl⟩
  cases hd
  rfl

/-- A new file on a broker without the durable. -/
def newInstall : World := ⟨.fresh, none, false, .opening⟩

theorem newInstall_starting : Starting fourEvents newInstall := ⟨.fresh, nofun, rfl, rfl⟩

/-- The floor step dies, and the next start completes. -/
def diesFlooring : List Action := List.replicate 20 .advance ++ .crash :: List.replicate 24 .advance

/-- The note is never written, and the next start completes. -/
def diesNoting : List Action := List.replicate 18 .advance ++ .crash :: List.replicate 20 .advance

/-- The notes are cleared and the durable not created, and the next start completes. -/
def diesCreating : List Action := List.replicate 24 .advance ++ .crash :: List.replicate 20 .advance

theorem newFile_reaches_floor : (diesFlooring.foldl (World.step fourEvents) newFile).Delivers fourEvents := by
  have hok : Lib.Permitted (World.step fourEvents) (World.StepOk fourEvents) newFile diesFlooring := by
    repeat' first | exact trivial | refine ⟨trivial, ?_⟩
  have hrunning : (diesFlooring.foldl (World.step fourEvents) newFile).pc = .running := rfl
  exact (restarts_reach_floor fourEvents Stream.fourSequences_monotone newFile newFile_starting diesFlooring hok).2.1
    hrunning

theorem fourEvents_floor : fourEvents.floor = 8 := by
  have hleast := (Stream.replayFloor_least Stream.fourSequences_monotone).1 ⟨8, (Stream.fourSequences_supported 8).mpr rfl⟩
  exact (Stream.fourSequences_supported _).mp hleast.1

theorem newFile_loses_event :
    (Starting fourEvents newFile ∧ (diesNoting.foldl (World.step fourEvents) newFile).pc = .running ∧
      ¬ (diesNoting.foldl (World.step fourEvents) newFile).Delivers fourEvents) ∧
    (Starting fourEvents newInstall ∧ (diesCreating.foldl (World.step fourEvents) newInstall).pc = .running ∧
      ¬ (diesCreating.foldl (World.step fourEvents) newInstall).KeepsFloor fourEvents) := by
  refine ⟨⟨newFile_starting, rfl, fun ⟨d, hd, hdelivers⟩ => ?_⟩, newInstall_starting, rfl, fun hkeeps => ?_⟩
  · -- the durable is the one the start found
    cases hd
    have hlacks : (diesNoting.foldl (World.step fourEvents) newFile).file.Lacks fourEvents 8 :=
      ⟨⟨(Stream.fourSequences_supported 8).mpr rfl, rfl⟩, nofun⟩
    exact absurd (hdelivers 8 hlacks) (by decide)
  · -- the durable begins at the beginning
    have hle := hkeeps ⟨0, true⟩ rfl rfl 5 rfl (Nat.zero_le 5)
    rw [fourEvents_floor] at hle
    exact absurd hle (by decide)

end World

end FactorQ.Projection
