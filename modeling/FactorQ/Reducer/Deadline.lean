/-
# `FactorQ.Reducer.Deadline` — the wait for one tool call

While a tool runs, the server it belongs to may send requests back, and the host services
them in the same loop that waits for the tool and for the call's timer.  The loop is a
biased `select!`: the tool first, then the timer, then the requests.

  * a servicing, once chosen, runs to its end; the timer can win between two of them only;
  * a servicing that ends past the timer is the last one: from there the host waits for the
    tool alone, for one grace;
  * a channel that is closed leaves the tool alone with the timer as it is.

`ToolWait` is the task, one poll at a time.  What it meets at a poll comes from outside:
the tool's answer, the state of the channel, and how long the task then sleeps if nothing is
ready.  A timer that is being awaited wakes the task when it elapses, so a sleep never goes
past it.  A poll takes no time.
-/
import FactorQ.Reducer.Wal

namespace FactorQ.Reducer

/-- What policy allows the call, and when the host stops waiting for it. -/
structure CallDeadline where
  allowed : Nat
  armed : Nat

/-- The tool's teardown budget. -/
def CallDeadline.grace (d : CallDeadline) : Nat := d.armed - d.allowed

/-- A server's request: how long servicing it takes, and whether that fails. -/
structure Servicing where
  duration : Nat
  fails : Bool
deriving DecidableEq

/-- What a poll of the channel finds. -/
inductive Received where
  | nothing
  | request (s : Servicing)
  | closed

/-- What the task meets at a poll.  `ρ` is what a tool returns, its errors included. -/
structure Meets (ρ : Type) where
  tool : Option ρ
  channel : Received
  /-- how long the task sleeps, if nothing is ready -/
  sleep : Nat

inductive WaitOutcome (ρ : Type) where
  | result (r : ρ)
  /-- the host stopped waiting; the text names the time allowed -/
  | timedOut (after : Nat)
  /-- servicing a request failed -/
  | infrastructure
deriving DecidableEq

inductive WaitPoint (ρ : Type) where
  | selecting
  | servicing (s : Servicing)
  /-- `timeout_at`: the tool alone, until the instant given -/
  | alone (timer : Nat)
  | returned (o : WaitOutcome ρ)

def WaitPoint.isReturned {ρ : Type} : WaitPoint ρ → Bool
  | returned _ => true
  | _ => false

/-- The servicing in progress. -/
def WaitPoint.current {ρ : Type} : WaitPoint ρ → List Servicing
  | servicing s => [s]
  | _ => []

structure ToolWait (ρ : Type) where
  deadline : CallDeadline
  started : Nat
  now : Nat
  point : WaitPoint ρ
  /-- the servicings begun, in order -/
  began : List Servicing
  /-- those that ended, with the instant they ended at -/
  ended : List (Nat × Servicing)
  /-- what the tool answered to each poll -/
  polls : List (Option ρ)

/-- The call at its start; with no channel the tool is awaited alone. -/
def awaitToolUnderDeadline (ρ : Type) (d : CallDeadline) (now : Nat) (sampling : Bool) : ToolWait ρ where
  deadline := d
  started := now
  now := now
  point := if sampling then .selecting else .alone (now + d.armed)
  began := []
  ended := []
  polls := []

namespace ToolWait

variable {ρ : Type}

def expiresAt (w : ToolWait ρ) : Nat := w.started + w.deadline.armed

def goto (w : ToolWait ρ) (p : WaitPoint ρ) : ToolWait ρ := { w with point := p }

def timedOut (w : ToolWait ρ) : ToolWait ρ := w.goto (.returned (.timedOut w.deadline.allowed))

/-- Parked until something wakes the task, the timer at the latest. -/
def parkUntil (w : ToolWait ρ) (timer sleep : Nat) : ToolWait ρ := { w with now := min (w.now + sleep) timer }

/-- The tool has not finished: the other arms of the `select!`. -/
def selectRest (w : ToolWait ρ) (m : Meets ρ) : ToolWait ρ :=
  if w.expiresAt ≤ w.now then w.timedOut
  else
    match m.channel with
    | .request s => { w with point := .servicing s, began := w.began ++ [s] }
    | .closed => w.goto (.alone w.expiresAt)
    | .nothing => w.parkUntil w.expiresAt m.sleep

/-- The tool has not finished, and nothing else is awaited. -/
def aloneRest (w : ToolWait ρ) (timer : Nat) (m : Meets ρ) : ToolWait ρ :=
  if timer ≤ w.now then w.timedOut else w.parkUntil timer m.sleep

/-- The tool is polled before anything else. -/
def pollTool (w : ToolWait ρ) (m : Meets ρ) (rest : ToolWait ρ → ToolWait ρ) : ToolWait ρ :=
  let w := { w with polls := w.polls ++ [m.tool] }
  match m.tool with
  | some r => w.goto (.returned (.result r))
  | none => rest w

/-- What follows a servicing. -/
def serviced (w : ToolWait ρ) (s : Servicing) : ToolWait ρ :=
  let w := { w with now := w.now + s.duration, ended := w.ended ++ [(w.now + s.duration, s)] }
  if s.fails then w.goto (.returned .infrastructure)
  else if w.expiresAt ≤ w.now then w.goto (.alone (w.now + w.deadline.grace))
  else w.goto .selecting

/-- The task is polled, or the servicing it is in comes to its end. -/
def step (w : ToolWait ρ) (m : Meets ρ) : ToolWait ρ :=
  match w.point with
  | .selecting => w.pollTool m fun w => w.selectRest m
  | .servicing s => w.serviced s
  | .alone timer => w.pollTool m fun w => w.aloneRest timer m
  | .returned _ => w

/-- The task after the first `n` polls. -/
def after (w : ToolWait ρ) (world : Nat → Meets ρ) : Nat → ToolWait ρ
  | 0 => w
  | n + 1 => (w.after world n).step (world n)

end ToolWait

/-- The longest of the servicings. -/
def longest (ss : List Servicing) : Nat := (ss.map Servicing.duration).foldr max 0

namespace ToolWait

variable {ρ : Type} {w w' : ToolWait ρ} {m : Meets ρ}

/-! ## What a poll can do -/

/-- Everything one step does; `w` is the task before it. -/
inductive Move (w : ToolWait ρ) (m : Meets ρ) : ToolWait ρ → Prop where
  | finished (r : ρ) (tool : m.tool = some r) (pending : w.point.current = []) (running : w.point.isReturned = false) :
      Move w m { w with polls := w.polls ++ [some r], point := .returned (.result r) }
  | expired (at_ : w.point = .selecting) (late : w.expiresAt ≤ w.now) :
      Move w m { w with polls := w.polls ++ [none], point := .returned (.timedOut w.deadline.allowed) }
  | begins (s : Servicing) (at_ : w.point = .selecting) (early : w.now < w.expiresAt) :
      Move w m { w with polls := w.polls ++ [none], point := .servicing s, began := w.began ++ [s] }
  | closes (at_ : w.point = .selecting) (early : w.now < w.expiresAt) :
      Move w m { w with polls := w.polls ++ [none], point := .alone w.expiresAt }
  | parks (at_ : w.point = .selecting) (early : w.now < w.expiresAt) :
      Move w m { w with polls := w.polls ++ [none], now := min (w.now + m.sleep) w.expiresAt }
  | breaks (s : Servicing) (at_ : w.point = .servicing s) (fails : s.fails = true) :
      Move w m { w with
        now := w.now + s.duration
        ended := w.ended ++ [(w.now + s.duration, s)]
        point := .returned .infrastructure }
  | overruns (s : Servicing) (at_ : w.point = .servicing s) (ok : s.fails = false)
      (late : w.expiresAt ≤ w.now + s.duration) :
      Move w m { w with
        now := w.now + s.duration
        ended := w.ended ++ [(w.now + s.duration, s)]
        point := .alone (w.now + s.duration + w.deadline.grace) }
  | goesOn (s : Servicing) (at_ : w.point = .servicing s) (ok : s.fails = false)
      (early : w.now + s.duration < w.expiresAt) :
      Move w m { w with
        now := w.now + s.duration
        ended := w.ended ++ [(w.now + s.duration, s)]
        point := .selecting }
  | abandons (timer : Nat) (at_ : w.point = .alone timer) (late : timer ≤ w.now) :
      Move w m { w with polls := w.polls ++ [none], point := .returned (.timedOut w.deadline.allowed) }
  | waits (timer : Nat) (at_ : w.point = .alone timer) (early : w.now < timer) :
      Move w m { w with polls := w.polls ++ [none], now := min (w.now + m.sleep) timer }
  | rests (o : WaitOutcome ρ) (at_ : w.point = .returned o) : Move w m w

theorem step_move (w : ToolWait ρ) (m : Meets ρ) : Move w m (w.step m) := by
  unfold step
  split
  · next hpt =>
    unfold pollTool
    dsimp only
    split
    · next r hr =>
      rw [hr]
      exact .finished r hr (by rw [hpt]; rfl) (by rw [hpt]; rfl)
    · next hr =>
      rw [hr]
      unfold selectRest
      split
      · next hlate => exact .expired hpt hlate
      · next hearly =>
        have hlt : w.now < w.expiresAt := Nat.not_le.mp hearly
        split
        · next s _ => exact .begins s hpt hlt
        · exact .closes hpt hlt
        · exact .parks hpt hlt
  · next s hpt =>
    unfold serviced
    dsimp only
    split
    · next hf => exact .breaks s hpt hf
    · next hok =>
      have hok : s.fails = false := by simpa using hok
      split
      · next hlate => exact .overruns s hpt hok hlate
      · next hearly => exact .goesOn s hpt hok (Nat.not_le.mp hearly)
  · next timer hpt =>
    unfold pollTool
    dsimp only
    split
    · next r hr =>
      rw [hr]
      exact .finished r hr (by rw [hpt]; rfl) (by rw [hpt]; rfl)
    · next hr =>
      rw [hr]
      unfold aloneRest
      split
      · next hlate => exact .abandons timer hpt hlate
      · next hearly => exact .waits timer hpt (Nat.not_le.mp hearly)
  · next o hpt => exact .rests o hpt

/-! ## The invariant -/

/-- The instant the call is over at, given the servicings begun. -/
def limit (w : ToolWait ρ) : Nat := w.expiresAt + longest w.began + w.deadline.grace

/-- What the instants say at each point. -/
def Timed (w : ToolWait ρ) : WaitPoint ρ → Prop
  | .selecting => w.now ≤ w.expiresAt ∧ ∀ e ∈ w.ended, e.1 < w.expiresAt
  | .servicing s => w.now < w.expiresAt ∧ s ∈ w.began ∧ ∀ e ∈ w.ended, e.1 < w.expiresAt
  | .alone timer =>
    w.now ≤ timer ∧ timer ≤ w.limit ∧
      ∀ e ∈ w.ended, w.expiresAt ≤ e.1 → timer = e.1 + w.deadline.grace
  | .returned o =>
    w.now ≤ w.limit ∧ ∀ e ∈ w.ended, w.expiresAt ≤ e.1 →
      (e.2.fails = true ∧ o = .infrastructure) ∨ (∃ r, o = .result r) ∨
        o = .timedOut w.deadline.allowed ∧ w.now = e.1 + w.deadline.grace

structure Sound (w : ToolWait ρ) : Prop where
  timed : w.Timed w.point
  serviced : w.began = w.ended.map Prod.snd ++ w.point.current
  answered : ∀ r, some r ∈ w.polls → w.point = .returned (.result r)

theorem expiresAt_le_limit (w : ToolWait ρ) : w.expiresAt ≤ w.limit := by
  unfold limit
  omega

theorem Timed.now_le_limit (h : w.Timed w.point) : w.now ≤ w.limit := by
  have hle := w.expiresAt_le_limit
  cases hpt : w.point with
  | selecting =>
    rw [hpt] at h
    exact Nat.le_trans h.1 hle
  | servicing s =>
    rw [hpt] at h
    exact Nat.le_trans (Nat.le_of_lt h.1) hle
  | alone timer =>
    rw [hpt] at h
    exact Nat.le_trans h.1 h.2.1
  | returned o =>
    rw [hpt] at h
    exact h.1

theorem duration_le_longest {ss : List Servicing} {s : Servicing} (h : s ∈ ss) : s.duration ≤ longest ss :=
  le_foldr_max (List.mem_map_of_mem h)

theorem Sound.unanswered (h : Sound w) (hrun : w.point.isReturned = false) {r : ρ}
    (hr : some r ∈ w.polls ++ [none]) : False := by
  rcases List.mem_append.mp hr with hold | hnew
  · rw [h.answered r hold] at hrun
    cases hrun
  · cases List.mem_singleton.mp hnew

/-- A servicing in progress is the only one that can end past the timer. -/
theorem Sound.inServicing (h : Sound w) {s : Servicing} (hpt : w.point = .servicing s) :
    w.began = (w.ended ++ [(w.now + s.duration, s)]).map Prod.snd ++ [] ∧ (∀ r, some r ∉ w.polls) ∧
      (∀ e ∈ w.ended, e.1 < w.expiresAt) ∧ w.now + s.duration ≤ w.expiresAt + longest w.began := by
  have htimed := h.timed
  rw [hpt] at htimed
  refine ⟨?_, ?_, htimed.2.2, ?_⟩
  · rw [h.serviced, hpt]
    simp [WaitPoint.current]
  · intro r hr
    have hreturned := h.answered r hr
    rw [hpt] at hreturned
    cases hreturned
  · have hlong := duration_le_longest htimed.2.1
    have hnow := htimed.1
    omega

theorem sound_move (hm : Move w m w') (h : Sound w) : Sound w' := by
  have htimed := h.timed
  have hbegan := h.serviced
  have hlimit := htimed.now_le_limit
  cases hm with
  | finished r tool pending running =>
    refine ⟨⟨hlimit, fun _ _ _ => .inr (.inl ⟨r, rfl⟩)⟩, ?_, ?_⟩
    · rw [pending] at hbegan
      exact hbegan
    · intro r' hr'
      rcases List.mem_append.mp hr' with hold | hnew
      · rw [h.answered r' hold] at running
        cases running
      · cases List.mem_singleton.mp hnew
        rfl
  | expired hpt late =>
    rw [hpt] at htimed hbegan
    refine ⟨⟨hlimit, fun e he hle => ?_⟩, hbegan, fun r hr => (h.unanswered (by rw [hpt]; rfl) hr).elim⟩
    exact absurd (htimed.2 e he) (Nat.not_lt.mpr hle)
  | begins s hpt early =>
    rw [hpt] at htimed hbegan
    refine ⟨⟨early, by simp, htimed.2⟩, ?_, fun r hr => (h.unanswered (by rw [hpt]; rfl) hr).elim⟩
    show w.began ++ [s] = w.ended.map Prod.snd ++ [s]
    rw [hbegan]
    simp [WaitPoint.current]
  | closes hpt early =>
    rw [hpt] at htimed hbegan
    refine ⟨⟨Nat.le_of_lt early, w.expiresAt_le_limit, fun e he hle => ?_⟩, hbegan,
      fun r hr => (h.unanswered (by rw [hpt]; rfl) hr).elim⟩
    exact absurd (htimed.2 e he) (Nat.not_lt.mpr hle)
  | parks hpt early =>
    rw [hpt] at htimed
    refine ⟨?_, hbegan, fun r hr => (h.unanswered (by rw [hpt]; rfl) hr).elim⟩
    show Timed _ w.point
    rw [hpt]
    exact ⟨Nat.min_le_right _ _, htimed.2⟩
  | breaks s hpt fails =>
    obtain ⟨hall, hnone, hearly, hle⟩ := h.inServicing hpt
    refine ⟨⟨Nat.le_trans hle (Nat.le_add_right _ _), ?_⟩, hall, fun r hr => absurd hr (hnone r)⟩
    intro e he hlate
    rcases List.mem_append.mp he with hold | hnew
    · exact absurd (hearly e hold) (Nat.not_lt.mpr hlate)
    · rw [List.mem_singleton.mp hnew]
      exact .inl ⟨fails, rfl⟩
  | overruns s hpt ok late =>
    obtain ⟨hall, hnone, hearly, hle⟩ := h.inServicing hpt
    refine ⟨⟨Nat.le_add_right _ _, Nat.add_le_add_right hle _, ?_⟩, hall, fun r hr => absurd hr (hnone r)⟩
    intro e he hlate
    rcases List.mem_append.mp he with hold | hnew
    · exact absurd (hearly e hold) (Nat.not_lt.mpr hlate)
    · rw [List.mem_singleton.mp hnew]
  | goesOn s hpt ok early =>
    obtain ⟨hall, hnone, hearly, -⟩ := h.inServicing hpt
    refine ⟨⟨Nat.le_of_lt early, ?_⟩, hall, fun r hr => absurd hr (hnone r)⟩
    intro e he
    rcases List.mem_append.mp he with hold | hnew
    · exact hearly e hold
    · rw [List.mem_singleton.mp hnew]
      exact early
  | abandons timer hpt late =>
    rw [hpt] at htimed hbegan
    refine ⟨⟨hlimit, fun e he hlate => .inr (.inr ⟨rfl, ?_⟩)⟩, hbegan,
      fun r hr => (h.unanswered (by rw [hpt]; rfl) hr).elim⟩
    rw [← htimed.2.2 e he hlate]
    exact Nat.le_antisymm htimed.1 late
  | waits timer hpt early =>
    rw [hpt] at htimed
    refine ⟨?_, hbegan, fun r hr => (h.unanswered (by rw [hpt]; rfl) hr).elim⟩
    show Timed _ w.point
    rw [hpt]
    exact ⟨Nat.min_le_right _ _, htimed.2.1, htimed.2.2⟩
  | rests o hpt => exact h

/-! ## The run -/

theorem sound_start (d : CallDeadline) (t : Nat) (sampling : Bool) :
    Sound (awaitToolUnderDeadline ρ d t sampling) := by
  cases sampling with
  | true =>
    refine ⟨⟨Nat.le_add_right _ _, ?_⟩, rfl, ?_⟩
    · intro e he
      cases he
    · intro r hr
      cases hr
  | false =>
    refine ⟨⟨Nat.le_add_right _ _, (awaitToolUnderDeadline ρ d t false).expiresAt_le_limit, ?_⟩, rfl, ?_⟩
    · intro e he
      cases he
    · intro r hr
      cases hr

theorem sound_after (h : Sound w) (world : Nat → Meets ρ) (n : Nat) : Sound (w.after world n) := by
  induction n with
  | zero => exact h
  | succ n ih => exact sound_move (step_move _ _) ih

theorem move_frame (hm : Move w m w') :
    w'.deadline = w.deadline ∧ w'.started = w.started ∧ w.now ≤ w'.now := by
  cases hm with
  | finished | expired | begins | closes | abandons | rests => exact ⟨rfl, rfl, Nat.le_refl _⟩
  | parks _ early | waits _ _ early =>
    exact ⟨rfl, rfl, Nat.le_min.mpr ⟨Nat.le_add_right _ _, Nat.le_of_lt early⟩⟩
  | breaks | overruns | goesOn => exact ⟨rfl, rfl, Nat.le_add_right _ _⟩

theorem after_frame (w : ToolWait ρ) (world : Nat → Meets ρ) (n : Nat) :
    (w.after world n).deadline = w.deadline ∧ (w.after world n).started = w.started := by
  induction n with
  | zero => exact ⟨rfl, rfl⟩
  | succ n ih =>
    obtain ⟨hd, hs, -⟩ := move_frame (step_move (w.after world n) (world n))
    exact ⟨hd.trans ih.1, hs.trans ih.2⟩

theorem after_now_mono (w : ToolWait ρ) (world : Nat → Meets ρ) {i j : Nat} (hij : i ≤ j) :
    (w.after world i).now ≤ (w.after world j).now := by
  induction hij with
  | refl => exact Nat.le_refl _
  | @step j _ ih =>
    obtain ⟨-, -, hle⟩ := move_frame (step_move (w.after world j) (world j))
    exact Nat.le_trans ih hle

/-- The host that waits for the tool alone goes on so until it returns. -/
theorem alone_move {timer : Nat} (hm : Move w m w') (hpt : w.point = .alone timer)
    (hrun : w'.point.isReturned = false) : w'.point = .alone timer := by
  cases hm with
  | finished | abandons | breaks | expired => cases hrun
  | waits => exact hpt
  | begins s hsel | closes hsel | parks hsel | overruns s hsel | goesOn s hsel | rests o hsel =>
    rw [hpt] at hsel
    cases hsel

variable {world : Nat → Meets ρ}

theorem alone_after {timer n : Nat} (hpt : (w.after world n).point = .alone timer)
    (hrun : ∀ k, (w.after world k).point.isReturned = false) {k : Nat} (hk : n ≤ k) :
    (w.after world k).point = .alone timer := by
  induction hk with
  | refl => exact hpt
  | @step k _ ih => exact alone_move (step_move _ _) ih (hrun (k + 1))

/-- A call whose clock goes on returns: past the timer it waits for the tool alone, and
that wait has an end. -/
theorem returns_of_progress (h : Sound w)
    (hclock : ∀ T, ∃ n, T ≤ (w.after world n).now ∨ (w.after world n).point.isReturned = true) :
    ∃ n, (w.after world n).point.isReturned = true := by
  by_contra hnever
  have hrun : ∀ k, (w.after world k).point.isReturned = false := by
    intro k
    cases hk : (w.after world k).point.isReturned with
    | false => rfl
    | true => exact absurd ⟨k, hk⟩ hnever
  have hpast : ∀ T, ∃ n, T ≤ (w.after world n).now := by
    intro T
    obtain ⟨n, hn | hn⟩ := hclock T
    · exact ⟨n, hn⟩
    · rw [hrun n] at hn
      cases hn
  obtain ⟨n, hn⟩ := hpast (w.expiresAt + 1)
  have hexp : (w.after world n).expiresAt = w.expiresAt := by
    obtain ⟨hd, hs⟩ := w.after_frame world n
    rw [expiresAt, expiresAt, hd, hs]
  have htimed := (sound_after h world n).timed
  cases hpt : (w.after world n).point with
  | selecting =>
    rw [hpt] at htimed
    have hle := htimed.1
    omega
  | servicing s =>
    rw [hpt] at htimed
    have hlt := htimed.1
    omega
  | returned o =>
    have hno := hrun n
    rw [hpt] at hno
    cases hno
  | alone timer =>
    obtain ⟨k, hk⟩ := hpast (timer + 1)
    have hle : ∀ j, n ≤ j → (w.after world j).now ≤ timer := by
      intro j hj
      have hj' := (sound_after h world j).timed
      rw [alone_after hpt hrun hj] at hj'
      exact hj'.1
    rcases Nat.le_total n k with hnk | hkn
    · have hlast := hle k hnk
      omega
    · have hback := w.after_now_mono world hkn
      have hlast := hle n (Nat.le_refl _)
      omega

end ToolWait

/-! ## The call is bounded -/

/-- For every tool, every arrival of requests and every closing of the channel, at every
poll of the call: it is within the time armed, the longest servicing and one grace of its
start; once it has returned, every servicing that began has ended; a poll that found the
tool finished returned its result; and a servicing that ended past the deadline and did not
fail was followed by a result of the tool, or by the full grace.  And the call returns, the
clock going on. -/
theorem tool_wait_bounded (ρ : Type) (d : CallDeadline) (start : Nat) (sampling : Bool) (world : Nat → Meets ρ) :
    (∀ n w, (awaitToolUnderDeadline ρ d start sampling).after world n = w →
      w.now ≤ start + d.armed + longest w.began + d.grace ∧
      (w.point.isReturned = true → w.began = w.ended.map Prod.snd) ∧
      (∀ r, some r ∈ w.polls → w.point = .returned (.result r)) ∧
      (∀ e ∈ w.ended, start + d.armed ≤ e.1 → ∀ o, w.point = .returned o →
        (e.2.fails = true ∧ o = .infrastructure) ∨ (∃ r, o = .result r) ∨
          o = .timedOut d.allowed ∧ w.now = e.1 + d.grace)) ∧
    ((∀ T, ∃ n, T ≤ ((awaitToolUnderDeadline ρ d start sampling).after world n).now ∨
        ((awaitToolUnderDeadline ρ d start sampling).after world n).point.isReturned = true) →
      ∃ n, ((awaitToolUnderDeadline ρ d start sampling).after world n).point.isReturned = true) := by
  have h₀ := ToolWait.sound_start (ρ := ρ) d start sampling
  refine ⟨fun n w hw => ?_, ToolWait.returns_of_progress h₀⟩
  have h := ToolWait.sound_after h₀ world n
  obtain ⟨hd, hs⟩ := (awaitToolUnderDeadline ρ d start sampling).after_frame world n
  rw [hw] at h hd hs
  have hd : w.deadline = d := hd
  have hs : w.started = start := hs
  have hexp : w.expiresAt = start + d.armed := by rw [ToolWait.expiresAt, hd, hs]
  refine ⟨?_, ?_, h.answered, ?_⟩
  · have hle := h.timed.now_le_limit
    rw [ToolWait.limit, hexp, hd] at hle
    exact hle
  · intro hret
    have hall := h.serviced
    cases hpt : w.point with
    | returned o =>
      rw [hpt] at hall
      simpa [WaitPoint.current] using hall
    | _ =>
      rw [hpt] at hret
      cases hret
  · intro e he hlate o hpt
    have htimed := h.timed
    rw [hpt] at htimed
    have hcases := htimed.2 e he (hexp ▸ hlate)
    rwa [hd] at hcases

/-- A tool that never answers and a server that always has another request: servicing each
takes four units, the last ends at sixteen, and the call is given up one grace later. -/
theorem tool_wait_always_ready :
    ((awaitToolUnderDeadline Unit ⟨10, 15⟩ 0 true).after (fun _ => ⟨none, .request ⟨4, false⟩, 1⟩) 14).now = 21 ∧
      ∃ n, ((awaitToolUnderDeadline Unit ⟨10, 15⟩ 0 true).after
        (fun _ => ⟨none, .request ⟨4, false⟩, 1⟩) n).point.isReturned = true :=
  ⟨by decide, (tool_wait_bounded Unit ⟨10, 15⟩ 0 true fun _ => ⟨none, .request ⟨4, false⟩, 1⟩).2
    fun _ => ⟨14, .inr (by decide)⟩⟩

end FactorQ.Reducer
