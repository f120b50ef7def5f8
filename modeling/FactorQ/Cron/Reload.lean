/-
# `FactorQ.Cron.Reload` — the watcher and the loop

Two goroutines know the schedule.  The watcher's reads the file, accepts what has held still
over the settle, makes it its own current configuration and hands it to the loop over a
channel without a buffer; the loop takes it in one of its selects.  When a removal falls due
the loop also asks the watcher itself: the same check, under the same lock, and what it
accepts is applied on the spot.

The lock is released before the hand-over.  While an accepted configuration waits to be
taken, the file can change once more and the loop's own check can accept the newer one; the
older one is taken afterwards and stays in force, and the watcher, whose current one is the
newer, sees no change that could put it right.  `last_accepted_in_force`: as long as the
loop's own check accepts nothing while another is waiting, the loop follows the watcher.

Configurations are numbered as they are accepted, the one the process started with is number
0.  Shutdown is left out: both goroutines then come to an end, and a hand-over with them.
-/
import FactorQ.Cron.Loop

namespace FactorQ.Cron

open Lib

/-! ## The check -/

section Check

variable (Content Sig : Type)

/-- `os.ReadFile`: the bytes or the error. -/
abbrev FileRead := Except String Content

/-- What is made of a read: its signature (`signature`), and the configuration in its bytes (`ParseConfig`). -/
structure Reader where
  signature : FileRead Content → Sig
  parse : Content → Except String Config

structure Watcher where
  current : Config
  /-- the signature last seen; `none` is a watcher that is not seeded -/
  lastSeen : Option Sig
  unsettledLogged : Bool

inductive Outcome where
  | unchanged
  /-- the message is logged once for a streak -/
  | unsettled (message : Option String)
  | rejected (message : String)
  | accepted (event : ReloadEvent)

variable {Content Sig} [DecidableEq Sig]

/-- The read ends the check when it shows what was last seen. -/
def Watcher.sees (reader : Reader Content Sig) (read : FileRead Content) (w : Watcher Sig) : Bool :=
  w.lastSeen = some (reader.signature read)

/-- The rest of `check` after the settle, with the second read. -/
def Watcher.conclude (reader : Reader Content Sig) (read confirm : FileRead Content) (w : Watcher Sig) :
    Watcher Sig × Outcome :=
  if reader.signature confirm ≠ reader.signature read then
    ({ w with unsettledLogged := true },
      .unsettled (if w.unsettledLogged then none
        else some "config changed while being read; reload deferred until it settles"))
  else
    let w := { w with unsettledLogged := false, lastSeen := some (reader.signature read) }
    match read with
    | .error e => (w, .rejected ("config reload rejected: " ++ e))
    | .ok data =>
      match reader.parse data with
      | .error e => (w, .rejected ("config reload rejected: " ++ e))
      | .ok next => ({ w with current := next }, .accepted ⟨next, diffConfigs w.current next⟩)

/-- An accepted configuration becomes the watcher's current one, and nothing else does. -/
theorem Watcher.conclude_current {reader : Reader Content Sig} {read confirm : FileRead Content}
    {w w' : Watcher Sig} {outcome : Outcome} (h : w.conclude reader read confirm = (w', outcome)) :
    (∃ event, outcome = .accepted event ∧ w'.current = event.config) ∨
      ((∀ event, outcome ≠ .accepted event) ∧ w'.current = w.current) := by
  unfold Watcher.conclude at h
  dsimp only at h
  split at h
  next =>
    obtain ⟨rfl, rfl⟩ := Prod.mk.inj h
    exact .inr ⟨fun _ => (nomatch ·), rfl⟩
  next =>
    split at h
    next =>
      obtain ⟨rfl, rfl⟩ := Prod.mk.inj h
      exact .inr ⟨fun _ => (nomatch ·), rfl⟩
    next =>
      split at h
      next =>
        obtain ⟨rfl, rfl⟩ := Prod.mk.inj h
        exact .inr ⟨fun _ => (nomatch ·), rfl⟩
      next next _ =>
        obtain ⟨rfl, rfl⟩ := Prod.mk.inj h
        exact .inl ⟨_, rfl, rfl⟩

end Check

/-! ## The system -/

section System

variable (Content Sig : Type)

/-- The watcher's goroutine. -/
inductive Goroutine where
  | watching
  /-- in the settle of a check, with what the first read gave -/
  | settling (read : FileRead Content)
  /-- at the channel with an accepted configuration and its number -/
  | handing (event : ReloadEvent) (number : Nat)

/-- The loop's own check. -/
inductive LoopCheck where
  | resting
  | settling (read : FileRead Content)
  /-- `Check` takes the lock again for the current configuration -/
  | fetching

structure System where
  file : FileRead Content
  watcher : Watcher Sig
  goroutine : Goroutine Content
  check : LoopCheck Content
  loop : Scheduler
  /-- how many configurations have been accepted -/
  accepted : Nat
  /-- the numbers of those the loop has put in force, oldest first -/
  applied : List Nat

inductive Act where
  /-- the file changes, or can no longer be read -/
  | write (file : FileRead Content)
  /-- a poll, a signal or a file event: the goroutine begins a check -/
  | look
  | confirm
  | handOver
  | loopLook
  | loopConfirm
  | loopFetch
  /-- anything else the loop does -/
  | loop (e : Event)

/-- The events of the loop that come from neither the watcher nor a shutdown. -/
def Event.own : Event → Bool
  | .recheck _ | .reload _ | .closed | .cancel => false
  | _ => true

variable {Content Sig} [DecidableEq Sig] (lib : Libraries) (window : Int) (reader : Reader Content Sig)

namespace System

/-- Nobody is in the settle of a check. -/
def unlocked (s : System Content Sig) : Bool :=
  match s.goroutine, s.check with
  | .settling _, _ => false
  | _, .settling _ => false
  | _, _ => true

/-- The goroutine has an accepted configuration to hand over. -/
def Waiting (s : System Content Sig) : Prop := ∃ event number, s.goroutine = .handing event number

/-- What the goroutine's check leaves behind. -/
def checked (s : System Content Sig) (w : Watcher Sig) : Outcome → System Content Sig
  | .accepted event =>
    { s with watcher := w, goroutine := .handing event (s.accepted + 1), accepted := s.accepted + 1 }
  | _ => { s with watcher := w, goroutine := .watching }

/-- What the loop's own check leaves behind. -/
def loopChecked (s : System Content Sig) (w : Watcher Sig) : Outcome → System Content Sig
  | .accepted event =>
    { s with
      watcher := w
      check := .resting
      loop := s.loop.step lib window (.recheck (.accepted event))
      accepted := s.accepted + 1
      applied := s.applied ++ [s.accepted + 1] }
  | _ => { s with watcher := w, check := .fetching }

/-- The loop takes what the goroutine hands it. -/
def handed (s : System Content Sig) (event : ReloadEvent) (number : Nat) : System Content Sig :=
  { s with
    goroutine := .watching
    loop := s.loop.step lib window (.reload event)
    applied := s.applied ++ [number] }

def step (s : System Content Sig) : Act Content → System Content Sig
  | .write file => { s with file := file }
  | .look =>
    match s.goroutine with
    | .watching =>
      if s.unlocked && !s.watcher.sees reader s.file then { s with goroutine := .settling s.file } else s
    | _ => s
  | .confirm =>
    match s.goroutine with
    | .settling read =>
      let (w, outcome) := s.watcher.conclude reader read s.file
      s.checked w outcome
    | _ => s
  | .handOver =>
    match s.goroutine, s.loop.pc with
    | .handing event number, .idle _ | .handing event number, .waiting _ _ => s.handed lib window event number
    | _, _ => s
  | .loopLook =>
    match s.check, s.loop.pc with
    | .resting, .confirming =>
      if s.unlocked then
        { s with check := if s.watcher.sees reader s.file then .fetching else .settling s.file }
      else s
    | _, _ => s
  | .loopConfirm =>
    match s.check with
    | .settling read =>
      let (w, outcome) := s.watcher.conclude reader read s.file
      s.loopChecked lib window w outcome
    | _ => s
  | .loopFetch =>
    match s.check with
    | .fetching =>
      if s.unlocked then
        { s with check := .resting, loop := s.loop.step lib window (.recheck (.holds s.watcher.current)) }
      else s
    | _ => s
  | .loop e => if e.own then { s with loop := s.loop.step lib window e } else s

/-- The process comes up with the configuration it has loaded; `seen` is the signature of its bytes. -/
def start (file : FileRead Content) (running : Config) (seen : Option Sig) (store : States) (clock : Int) :
    System Content Sig :=
  ⟨file, ⟨running, seen, false⟩, .watching, .resting, .start running store clock, 0, [0]⟩

end System

/-- The loop's own check accepts a configuration only when no other is waiting to be handed over. -/
def Alone (s : System Content Sig) : Act Content → Prop
  | .loopConfirm => ∀ read event, s.check = .settling read →
      (s.watcher.conclude reader read s.file).2 = .accepted event → ¬ s.Waiting
  | _ => True

end System

/-! ## The loop's part -/

section Loop

variable {lib : Libraries} {window : Int}

/-- On its own the loop keeps its configuration and its channel, and a check it is in. -/
theorem Scheduler.step_own (s : Scheduler) {e : Event} (he : e.own = true) :
    (s.step lib window e).config = s.config ∧ (s.step lib window e).reloads = s.reloads ∧
      (s.pc = .confirming → (s.step lib window e).pc = .confirming) := by
  have hm : s.Moves lib window e (s.step lib window e) := Scheduler.step_moves s e
  refine ⟨?_, ?_, fun hpc => ?_⟩
  · generalize s.step lib window e = s' at hm
    cases hm with
    | rechecks => exact nomatch he
    | reloads => exact nomatch he
    | _ => rfl
  · generalize s.step lib window e = s' at hm
    cases hm with
    | replans _ _ _ hopen =>
      rcases hopen with rfl | h
      · exact nomatch he
      · exact h
    | _ => rfl
  · cases e <;> simp_all [Scheduler.step, Event.own]

theorem Scheduler.step_reload {s : Scheduler} (hpc : s.pc.Selects) (hopen : s.reloads = true) (event : ReloadEvent) :
    s.step lib window (.reload event) = { s.applyReload window event with pc := .planning } := by
  cases hp : s.pc <;> simp_all [Pc.Selects, Scheduler.step]

theorem Scheduler.step_recheck {s : Scheduler} (hpc : s.pc = .confirming) (answer : RecheckAnswer) :
    s.step lib window (.recheck answer) = s.confirmRemovals window answer := by
  simp [Scheduler.step, hpc]

end Loop

/-! ## The invariant -/

section Follows

variable {Content Sig : Type} {lib : Libraries} {window : Int} {reader : Reader Content Sig}

theorem System.not_waiting {s : System Content Sig} {g : Goroutine Content} (hg : s.goroutine = g)
    (h : ∀ event number, g ≠ .handing event number) : ¬ s.Waiting := by
  rintro ⟨event, number, hw⟩
  exact h event number (hg.symm.trans hw)

/-- The number of the configuration in force is the last applied. -/
structure System.Follows (s : System Content Sig) : Prop where
  ordered : s.applied.IsChain (· < ·)
  /-- what waits is the watcher's current configuration, and newer than the one in force -/
  waiting : ∀ event number, s.goroutine = .handing event number →
    event.config = s.watcher.current ∧ number = s.accepted ∧ ∀ n ∈ s.applied.getLast?, n < number
  inForce : ¬ s.Waiting → s.loop.config = s.watcher.current ∧ s.applied.getLast? = some s.accepted
  opened : s.loop.reloads = true
  confirming : s.check ≠ .resting → s.loop.pc = .confirming

namespace System.Follows

variable {s : System Content Sig}

theorem start (file : FileRead Content) (running : Config) (seen : Option Sig) (store : States) (clock : Int) :
    (System.start file running seen store clock).Follows :=
  ⟨List.isChain_singleton 0, fun _ _ => (nomatch ·), fun _ => ⟨rfl, rfl⟩, rfl, fun h => absurd rfl h⟩

theorem handed (h : s.Follows) {event : ReloadEvent} {number : Nat} (hg : s.goroutine = .handing event number)
    (hpc : s.loop.pc.Selects) : (s.handed lib window event number).Follows := by
  obtain ⟨hconfig, hnumber, hnewer⟩ := h.waiting event number hg
  have hcheck : s.check = .resting := by
    by_contra hne
    rw [h.confirming hne] at hpc
    exact hpc
  refine ⟨?_, fun _ _ => (nomatch ·), fun _ => ⟨?_, ?_⟩, ?_, fun hne => absurd hcheck hne⟩
  · refine h.ordered.append (List.isChain_singleton _) fun n hn m hm => ?_
    obtain rfl := Option.some.inj hm
    exact hnewer n hn
  · change (s.loop.step lib window _).config = s.watcher.current
    rw [Scheduler.step_reload hpc h.opened, ← hconfig]
    rfl
  · rw [hnumber]
    exact List.getLast?_concat ..
  · change (s.loop.step lib window _).reloads = true
    rw [Scheduler.step_reload hpc h.opened]
    exact h.opened

variable [DecidableEq Sig]

theorem checked (h : s.Follows) {read : FileRead Content} (hg : s.goroutine = .settling read) {w : Watcher Sig}
    {outcome : Outcome} (hc : s.watcher.conclude reader read s.file = (w, outcome)) : (s.checked w outcome).Follows := by
  have hfree : ¬ s.Waiting := System.not_waiting hg fun _ _ => (nomatch ·)
  obtain ⟨hconfig, hlast⟩ := h.inForce hfree
  have hcurrent := Watcher.conclude_current hc
  cases outcome with
  | accepted event =>
    refine ⟨h.ordered, ?_, fun hno => absurd ⟨event, s.accepted + 1, rfl⟩ hno, h.opened, h.confirming⟩
    intro event' number' hw
    obtain ⟨rfl, rfl⟩ := Goroutine.handing.inj hw
    rcases hcurrent with ⟨_, heq, hnew⟩ | ⟨hno, _⟩
    · refine ⟨?_, rfl, fun n hn => ?_⟩
      · rw [Outcome.accepted.inj heq]
        exact hnew.symm
      · have : n = s.accepted := Option.some.inj (hn.symm.trans hlast)
        omega
    · exact absurd rfl (hno event)
  | _ =>
    refine ⟨h.ordered, fun _ _ => (nomatch ·), fun _ => ⟨?_, hlast⟩, h.opened, h.confirming⟩
    rcases hcurrent with ⟨_, heq, _⟩ | ⟨_, hsame⟩
    · exact nomatch heq
    · exact hconfig.trans hsame.symm

theorem loopChecked (h : s.Follows) {read : FileRead Content} (hs : s.check = .settling read) {w : Watcher Sig}
    {outcome : Outcome} (hc : s.watcher.conclude reader read s.file = (w, outcome))
    (hok : ∀ event, outcome = .accepted event → ¬ s.Waiting) : (s.loopChecked lib window w outcome).Follows := by
  have hpc : s.loop.pc = .confirming := h.confirming (by rw [hs]; exact (nomatch ·))
  have hcurrent := Watcher.conclude_current hc
  cases outcome with
  | accepted event =>
    have hfree : ¬ s.Waiting := hok event rfl
    obtain ⟨_, hlast⟩ := h.inForce hfree
    refine ⟨?_, fun ev n hw => absurd ⟨ev, n, hw⟩ hfree, fun _ => ⟨?_, List.getLast?_concat ..⟩, ?_,
      fun hne => absurd rfl hne⟩
    · refine h.ordered.append (List.isChain_singleton _) fun n hn m hm => ?_
      have hn : n = s.accepted := Option.some.inj (hn.symm.trans hlast)
      have hm : s.accepted + 1 = m := Option.some.inj hm
      omega
    · rcases hcurrent with ⟨_, heq, hnew⟩ | ⟨hno, _⟩
      · change (s.loop.step lib window _).config = w.current
        rw [hnew, ← Outcome.accepted.inj heq, Scheduler.step_recheck hpc]
        rfl
      · exact absurd rfl (hno event)
    · change (s.loop.step lib window _).reloads = true
      rw [Scheduler.step_recheck hpc]
      exact h.opened
  | _ =>
    have hsame : w.current = s.watcher.current := by
      rcases hcurrent with ⟨_, heq, _⟩ | ⟨_, hsame⟩
      · exact nomatch heq
      · exact hsame
    refine ⟨h.ordered, fun ev n hw => ?_, fun hfree => ?_, h.opened, fun _ => hpc⟩
    · obtain ⟨hev, hrest⟩ := h.waiting ev n hw
      exact ⟨hev.trans hsame.symm, hrest⟩
    · obtain ⟨hconfig, hlast⟩ := h.inForce hfree
      exact ⟨hconfig.trans hsame.symm, hlast⟩

theorem step (act : Act Content) (hok : Alone reader s act) (h : s.Follows) :
    (s.step lib window reader act).Follows := by
  cases act with
  | write file => exact ⟨h.ordered, h.waiting, h.inForce, h.opened, h.confirming⟩
  | look =>
    simp only [System.step]
    split
    next hg =>
      split
      next =>
        have hfree : ¬ s.Waiting := System.not_waiting hg fun _ _ => (nomatch ·)
        exact ⟨h.ordered, fun _ _ => (nomatch ·), fun _ => h.inForce hfree, h.opened, h.confirming⟩
      next => exact h
    next => exact h
  | confirm =>
    simp only [System.step]
    split
    next read hg => exact h.checked hg rfl
    next => exact h
  | handOver =>
    simp only [System.step]
    split
    next event number _ hg hpc => exact h.handed hg (hpc ▸ trivial)
    next event number _ _ hg hpc => exact h.handed hg (hpc ▸ trivial)
    next => exact h
  | loopLook =>
    simp only [System.step]
    split
    next hpc =>
      split
      next => exact ⟨h.ordered, h.waiting, h.inForce, h.opened, fun _ => hpc⟩
      next => exact h
    next => exact h
  | loopConfirm =>
    simp only [System.step]
    split
    next read hs => exact h.loopChecked hs rfl fun event he => hok read event hs he
    next => exact h
  | loopFetch =>
    simp only [System.step]
    split
    next hs =>
      have hpc : s.loop.pc = .confirming := h.confirming (by rw [hs]; exact (nomatch ·))
      split
      next =>
        rw [Scheduler.step_recheck hpc]
        exact ⟨h.ordered, h.waiting, h.inForce, h.opened, fun hne => absurd rfl hne⟩
      next => exact h
    next => exact h
  | loop e =>
    simp only [System.step]
    split
    next he =>
      obtain ⟨hconfig, hopen, hconf⟩ := s.loop.step_own he
      exact ⟨h.ordered, h.waiting, fun hfree => ⟨hconfig.trans (h.inForce hfree).1, (h.inForce hfree).2⟩,
        hopen.trans h.opened, fun hne => hconf (h.confirming hne)⟩
    next => exact h

end System.Follows

/-- The schedule in force is the last one accepted.  As long as the loop's own check accepts nothing while
an accepted configuration waits, the loop puts configurations in force in the order of their acceptance, and
with none waiting it plans from the watcher's. -/
theorem last_accepted_in_force [DecidableEq Sig] (lib : Libraries) (window : Int) (reader : Reader Content Sig)
    (file : FileRead Content) (running : Config) (seen : Option Sig) (store : States) (clock : Int)
    (acts : List (Act Content))
    (hacts : Permitted (System.step lib window reader) (Alone reader) (.start file running seen store clock) acts) :
    let s := acts.foldl (System.step lib window reader) (.start file running seen store clock)
    s.applied.IsChain (· < ·) ∧ (¬ s.Waiting → s.loop.config = s.watcher.current) := by
  intro s
  have h : s.Follows := hacts.inv (fun _ act => System.Follows.step act) (.start file running seen store clock)
  exact ⟨h.ordered, fun hfree => (h.inForce hfree).1⟩

end Follows

/-! ## Two runs -/

/-- A configuration with these jobs, on the hour. -/
def jobsNamed (names : List String) (h : names.Nodup) : Config where
  maxFiresPerHour := 120
  jobs := names.map fun name => hourlyJob name "skip"
  distinct := by simpa [List.map_map, Function.comp_def, hourlyJob] using h

/-- A file whose content is the configuration itself. -/
def plainReader : Reader Config (Option Config) where
  signature read := read.toOption
  parse content := .ok content

def withB : Config := jobsNamed ["a", "b"] (by decide)
def withoutB : Config := jobsNamed ["a"] (by decide)
def withC : Config := jobsNamed ["a", "c"] (by decide)
def withD : Config := jobsNamed ["a", "d"] (by decide)

/-- Job `b` is dropped, and its removal falls due. -/
def dropB : List (Act Config) :=
  [.loop (.plan 1 0), .write (.ok withoutB), .look, .confirm, .handOver, .loop (.plan 1 0),
    .loop (.tick defaultRemovalConfirm.toNat)]

/-- The file changes, and the loop's own check is the one that sees it. -/
def loopSees : List (Act Config) :=
  [.write (.ok withD), .loop .confirm, .loopLook, .loopConfirm, .loop (.plan 1 0)]

theorem loopSees_in_force :
    let s := (dropB ++ loopSees).foldl (System.step hourly 0 plainReader)
      (.start (.ok withB) withB (some (some withB)) .empty 1)
    s.loop.config = s.watcher.current ∧ s.watcher.current = withD := by
  have h := last_accepted_in_force hourly 0 plainReader (.ok withB) withB (some (some withB)) .empty 1
    (dropB ++ loopSees)
    ⟨trivial, trivial, trivial, trivial, trivial, trivial, trivial, trivial, trivial, trivial,
      (fun _ _ _ _ ⟨_, _, h⟩ => nomatch h), trivial, trivial⟩
  exact ⟨h.2 (fun ⟨_, _, h⟩ => nomatch h), rfl⟩

/-- The same with an accepted configuration waiting: it is put in force after the newer one, and stays. -/
theorem overtaken_reload_in_force :
    let s := (dropB ++ [Act.write (.ok withC), .look, .confirm] ++ loopSees ++ [Act.handOver]).foldl
      (System.step hourly 0 plainReader) (.start (.ok withB) withB (some (some withB)) .empty 1)
    s.applied = [0, 1, 3, 2] ∧ s.goroutine = .watching ∧ s.check = .resting ∧
      s.loop.config = withC ∧ s.watcher.current = withD ∧ s.watcher.sees plainReader s.file = true :=
  ⟨rfl, rfl, rfl, rfl, rfl, by decide +kernel⟩

end FactorQ.Cron
