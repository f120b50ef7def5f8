/-
# `FactorQ.Reducer.Rounds` — the rows as a history of rounds

A round is a model turn and the results recorded for its calls.  The completed
rows of an invocation, in the order of their numbers, are a list of rounds laid
out flat: `Logged`.  Cutting and grouping that list is cutting its last round
and grouping each round, so what a resume replays is read off the rounds.

Which rounds are there changes in two ways only.  A completed turn opens one, and
a completed call adds to the last.  (A call nobody implements is closed, opened
and closed again; the middle step takes its result back.)
-/
import FactorQ.Lib.Numbered
import FactorQ.Reducer.Replay

namespace FactorQ.Reducer

open Lib

structure Round where
  response : ModelResponse
  results : List ToolCallResult

namespace Round

/-- One entry for each row. -/
def flat (r : Round) : List CapabilityResult := .modelResult r.response :: r.results.map .toolResult

/-- What the live loop fed back. -/
def caps (r : Round) : List CapabilityResult := .modelResult r.response :: flushToolBatch r.results

/-- A round with calls still unanswered goes back to its turn. -/
def cut (r : Round) : Round :=
  if r.results.length < r.response.toolCalls.length then { r with results := [] } else r

def callIds (r : Round) : List ToolCallId := r.response.toolCalls.map ToolCallRequest.toolCallId

/-- The results answer the first calls of the turn, in order. -/
def Answers (r : Round) : Prop := r.results.map ToolCallResult.toolCallId <+: r.callIds

end Round

def flatten (rounds : List Round) : List CapabilityResult := rounds.flatMap Round.flat

def capsOf (rounds : List Round) : List CapabilityResult := rounds.flatMap Round.caps

def cutLast : List Round → List Round
  | [] => []
  | [r] => [r.cut]
  | r :: rest => r :: cutLast rest

theorem cutLast_concat (rounds : List Round) (r : Round) : cutLast (rounds ++ [r]) = rounds ++ [r.cut] := by
  induction rounds with
  | nil => rfl
  | cons s rest ih =>
    rcases hrest : rest ++ [r] with _ | ⟨t, ts⟩
    · exact absurd hrest (by simp)
    · rw [List.cons_append, hrest, cutLast, ← hrest, ih, List.cons_append]
      simp

theorem flatten_concat (rounds : List Round) (r : Round) : flatten (rounds ++ [r]) = flatten rounds ++ r.flat := by
  simp [flatten]

theorem capsOf_concat (rounds : List Round) (r : Round) : capsOf (rounds ++ [r]) = capsOf rounds ++ r.caps := by
  simp [capsOf]

/-! ## Cutting and grouping -/

theorem coalesceFrom_results (batch rs : List ToolCallResult) (rest : List CapabilityResult) :
    coalesceFrom batch (rs.map .toolResult ++ rest) = coalesceFrom (batch ++ rs) rest := by
  induction rs generalizing batch with
  | nil => simp
  | cons r rs ih =>
    rw [List.map_cons, List.cons_append, coalesceFrom, ih, List.append_assoc]
    rfl

theorem coalesceFrom_flatten (batch : List ToolCallResult) (rounds : List Round) :
    coalesceFrom batch (flatten rounds) = flushToolBatch batch ++ capsOf rounds := by
  induction rounds generalizing batch with
  | nil => simp [flatten, capsOf, coalesceFrom]
  | cons r rest ih =>
    show coalesceFrom batch (r.flat ++ flatten rest) = flushToolBatch batch ++ (r.caps ++ capsOf rest)
    rw [Round.flat, List.cons_append, coalesceFrom, coalesceFrom_results, List.nil_append, ih, Round.caps]
    · simp
    · intro r' h
      cases h

/-- Grouping the rows gives what the live loop fed back. -/
theorem coalesce_flatten (rounds : List Round) : coalesceToolResults (flatten rounds) = capsOf rounds :=
  coalesceFrom_flatten [] rounds

theorem lastModel?_results (rs : List ToolCallResult) : lastModel? (rs.map .toolResult) = none := by
  induction rs with
  | nil => rfl
  | cons r rs ih =>
    rw [List.map_cons]
    unfold lastModel?
    rw [ih]

theorem lastModel?_append (l : List CapabilityResult) {m : List CapabilityResult} {n calls : Nat}
    (h : lastModel? m = some (n, calls)) : lastModel? (l ++ m) = some (l.length + n, calls) := by
  induction l with
  | nil => simpa using h
  | cons c l ih =>
    rw [List.cons_append, List.length_cons]
    unfold lastModel?
    rw [ih]
    simp only [Option.some.injEq, Prod.mk.injEq, and_true]
    omega

theorem lastModel?_flatten (rounds : List Round) (r : Round) :
    lastModel? (flatten (rounds ++ [r])) =
      some ((flatten rounds).length + 1, r.response.toolCalls.length) := by
  rw [flatten_concat]
  refine lastModel?_append _ ?_
  unfold Round.flat lastModel?
  rw [lastModel?_results]

/-- Cutting an incomplete batch cuts the last round. -/
theorem truncate_flatten (rounds : List Round) :
    truncateIncompleteFinalBatch (flatten rounds) = flatten (cutLast rounds) := by
  rcases List.eq_nil_or_concat rounds with rfl | ⟨init, r, rfl⟩
  · rfl
  · rw [List.concat_eq_append, truncateIncompleteFinalBatch, lastModel?_flatten, cutLast_concat]
    dsimp only
    have hlen : (flatten (init ++ [r])).length - ((flatten init).length + 1) = r.results.length := by
      rw [flatten_concat, List.length_append, Round.flat, List.length_cons, List.length_map]
      omega
    rw [hlen]
    by_cases hlt : r.results.length < r.response.toolCalls.length
    · rw [if_pos ⟨by omega, hlt⟩, Round.cut, if_pos hlt, flatten_concat, flatten_concat, List.take_append]
      simp [Round.flat]
    · rw [if_neg (by omega), Round.cut, if_neg hlt]

/-! ## Replaying a history -/

variable {cfg : HostConfig} {w w' : Wal}

theorem replaySteps_append (p : Point) (xs ys : List CapabilityResult) :
    replaySteps cfg w p (xs ++ ys) = (replaySteps cfg w p xs).bind fun q => replaySteps cfg w q ys := by
  induction xs generalizing p with
  | nil => rfl
  | cons c xs ih =>
    rw [List.cons_append, replaySteps, replaySteps]
    cases cfg.stepAt w p with
    | error e => rfl
    | ok out => exact ih _

variable {xs : List CapabilityResult} {p q : Point}

theorem replaySteps_stepIndex (h : replaySteps cfg w p xs = .ok q) : q.stepIndex = p.stepIndex + xs.length := by
  induction xs generalizing p with
  | nil =>
    cases h
    rfl
  | cons c xs ih =>
    rw [replaySteps] at h
    split at h
    · cases h
    · have hq := ih h
      dsimp only at hq
      rw [hq, List.length_cons]
      omega

/-- A replay looks at the notices of the steps it performs and at nothing else of
the store. -/
theorem replaySteps_congr {p : Point} (h : ∀ k, k < p.stepIndex + xs.length → w'.noticesAt k = w.noticesAt k) :
    replaySteps cfg w' p xs = replaySteps cfg w p xs := by
  induction xs generalizing p with
  | nil => rfl
  | cons c xs ih =>
    have hstep : cfg.stepAt w' p = cfg.stepAt w p := by
      rw [HostConfig.stepAt, HostConfig.stepAt, h p.stepIndex (by simp)]
    rw [replaySteps, replaySteps, hstep]
    cases cfg.stepAt w p with
    | error e => rfl
    | ok out =>
      refine ih fun k hk => h k ?_
      rw [List.length_cons]
      dsimp only at hk
      omega

theorem replaySteps_concat {c : CapabilityResult} {out : StepOutput} (h : replaySteps cfg w p xs = .ok q)
    (hstep : cfg.stepAt w q = .ok out) :
    replaySteps cfg w p (xs ++ [c]) = .ok ⟨some out.state, some c, q.stepIndex + 1⟩ := by
  rw [replaySteps_append, h]
  show replaySteps cfg w q [c] = _
  rw [replaySteps, hstep]
  rfl

/-- What a replay reaches, from its last capability. -/
theorem replaySteps_concat_inv {c : CapabilityResult} (h : replaySteps cfg w p (xs ++ [c]) = .ok q) :
    ∃ r out, replaySteps cfg w p xs = .ok r ∧ cfg.stepAt w r = .ok out ∧
      q = ⟨some out.state, some c, r.stepIndex + 1⟩ := by
  rw [replaySteps_append] at h
  cases hxs : replaySteps cfg w p xs with
  | error e =>
    rw [hxs] at h
    cases h
  | ok r =>
    rw [hxs] at h
    change replaySteps cfg w r [c] = .ok q at h
    rw [replaySteps] at h
    split at h
    · cases h
    · next out hout =>
      cases h
      exact ⟨r, out, rfl, hout, rfl⟩

/-! ## The entries of the rows -/

/-- The numbered entry of a completed tool row. -/
def toolEntry (r : ToolCallId × ToolRow) : Option (Nat × CapabilityResult) :=
  if r.2.status = .completed then r.2.seq.map fun n => (n, .toolResult (toolRowToResult r.1 r.2)) else none

/-- An agent turn that was answered. -/
def LlmRow.isTurn (r : LlmRow) : Bool :=
  r.origin = .agentTurn && r.status = .completed && r.isError != some true

def LlmRow.turn? (r : LlmRow) : Option ModelResponse :=
  if r.isTurn then
    match r.response with
    | some (.response resp) => some resp
    | _ => none
  else none

def turnEntry (r : Nat × LlmRow) : Option (Nat × CapabilityResult) :=
  r.2.turn?.bind fun resp => r.2.seq.map fun n => (n, .modelResult resp)

def Wal.entries (w : Wal) : List (Nat × CapabilityResult) :=
  w.tools.rows.filterMap toolEntry ++ w.llms.rows.filterMap turnEntry

/-- The completed rows, in the order of their numbers, are these rounds. -/
structure Logged (w : Wal) (rounds : List Round) : Prop where
  order : InOrder w.entries (flatten rounds)
  tools : w.tools.All fun _ row => row.status = .completed → row.seq.isSome = true
  turns : w.llms.All fun _ row => row.isTurn = true → row.seq.isSome = true ∧ row.turn?.isSome = true

variable {e : Nat × CapabilityResult}

theorem toolEntry_eq_some {r : ToolCallId × ToolRow} (h : toolEntry r = some e) :
    r.2.status = .completed ∧ r.2.seq = some e.1 ∧ e.2 = .toolResult (toolRowToResult r.1 r.2) := by
  unfold toolEntry at h
  split at h
  · next hs =>
    obtain ⟨n, hn, rfl⟩ := Option.map_eq_some_iff.mp h
    exact ⟨hs, hn, rfl⟩
  · cases h

theorem turnEntry_eq_some {r : Nat × LlmRow} (h : turnEntry r = some e) :
    ∃ resp, r.2.turn? = some resp ∧ r.2.seq = some e.1 ∧ e.2 = .modelResult resp := by
  obtain ⟨resp, hr, hm⟩ := Option.bind_eq_some_iff.mp h
  obtain ⟨n, hn, rfl⟩ := Option.map_eq_some_iff.mp hm
  exact ⟨resp, hr, hn, rfl⟩

theorem entries_lt_nextSeq (h : e ∈ w.entries) : e.1 < w.nextSeq := by
  rw [Wal.nextSeq]
  rcases List.mem_append.mp h with ht | hl
  · obtain ⟨r, hr, he⟩ := List.mem_filterMap.mp ht
    have hmem : e.1 ∈ w.tools.rows.filterMap fun r => r.2.seq :=
      List.mem_filterMap.mpr ⟨r, hr, (toolEntry_eq_some he).2.1⟩
    have hle := le_foldr_max hmem
    omega
  · obtain ⟨r, hr, he⟩ := List.mem_filterMap.mp hl
    obtain ⟨_, _, hs, _⟩ := turnEntry_eq_some he
    have hmem : e.1 ∈ w.llms.rows.filterMap fun r => r.2.seq := List.mem_filterMap.mpr ⟨r, hr, hs⟩
    have hle := le_foldr_max hmem
    omega

/-! ## What a resume reads off the rounds -/

/-- No agent turn failed without being deferred. -/
def Wal.NoLostFailure (w : Wal) : Prop :=
  ∀ r ∈ w.llms.rows, r.2.origin = .agentTurn → r.2.status = .completed → r.2.isError = some true →
    r.2.deferredAt.isSome = true

instance (w : Wal) : Decidable w.NoLostFailure :=
  inferInstanceAs (Decidable (∀ r ∈ w.llms.rows, r.2.origin = .agentTurn → r.2.status = .completed →
    r.2.isError = some true → r.2.deferredAt.isSome = true))

/-- The collected turn of a row, with the key it is sorted by. -/
def turnKeyed (r : Nat × LlmRow) : Option (SortKey × CapabilityResult) :=
  r.2.turn?.map fun resp => (replaySortKey r.2.seq r.2.completedAt, .modelResult resp)

theorem collectTurns_eq {rows : List (Nat × LlmRow)}
    (hlost : ∀ r ∈ rows, r.2.origin = .agentTurn → r.2.status = .completed → r.2.isError = some true →
      r.2.deferredAt.isSome = true)
    (hturn : ∀ r ∈ rows, r.2.isTurn = true → r.2.turn?.isSome = true) :
    collectTurns rows = .ok (.turns (rows.filterMap turnKeyed)) := by
  induction rows with
  | nil => rfl
  | cons r rest ih =>
    obtain ⟨id, r⟩ := r
    have ih := ih (fun s hs => hlost s (List.mem_cons_of_mem _ hs))
      (fun s hs => hturn s (List.mem_cons_of_mem _ hs))
    have hlost := hlost (id, r) List.mem_cons_self
    have hturn := hturn (id, r) List.mem_cons_self
    rw [collectTurns]
    split
    · next hskip =>
      have hno : turnKeyed (id, r) = none := by
        have : r.isTurn = false := by
          rcases hskip with h | h <;> simp [LlmRow.isTurn, h]
        simp [turnKeyed, LlmRow.turn?, this]
      rw [ih, List.filterMap_cons_none hno]
    · next hkeep =>
      push Not at hkeep
      split
      · next herr =>
        rw [if_pos (hlost hkeep.1 hkeep.2 herr), ih, List.filterMap_cons_none]
        simp [turnKeyed, LlmRow.turn?, LlmRow.isTurn, herr]
      · next hok =>
        have his : r.isTurn = true := by simp [LlmRow.isTurn, hkeep.1, hkeep.2, hok]
        obtain ⟨resp, hresp⟩ := Option.isSome_iff_exists.mp (hturn his)
        have hbody : r.response = some (.response resp) := by
          unfold LlmRow.turn? at hresp
          rw [if_pos his] at hresp
          split at hresp
          · next hb =>
            cases hresp
            exact hb
          · cases hresp
        have hkey : turnKeyed (id, r) = some (replaySortKey r.seq r.completedAt, .modelResult resp) := by
          rw [turnKeyed, hresp]
          rfl
        rw [hbody, ih, List.filterMap_cons_some hkey]

/-- The key with its number taken out. -/
def numberOf (e : SortKey × CapabilityResult) : Nat × CapabilityResult := (e.1.1.getD 0, e.2)

/-- The rows a resume collects, up to their keys, are the entries. -/
theorem map_numberOf (h : Logged w rounds) :
    (collectTools w.tools.rows ++ w.llms.rows.filterMap turnKeyed).map numberOf = w.entries := by
  rw [List.map_append, Wal.entries, collectTools, List.map_filterMap, List.map_filterMap]
  congr 1
  · refine List.filterMap_congr fun r hr => ?_
    unfold toolEntry
    split
    · next hs =>
      obtain ⟨n, hn⟩ := Option.isSome_iff_exists.mp (h.tools r.1 r.2 (Table.mem_rows.mp hr) hs)
      rw [hn]
      rfl
    · rfl
  · refine List.filterMap_congr fun r hr => ?_
    unfold turnKeyed turnEntry
    cases hresp : r.2.turn? with
    | none => rfl
    | some resp =>
      have his : r.2.isTurn = true := by
        by_contra hno
        rw [LlmRow.turn?, if_neg hno] at hresp
        cases hresp
      obtain ⟨n, hn⟩ := Option.isSome_iff_exists.mp (h.turns r.1 r.2 (Table.mem_rows.mp hr) his).1
      rw [hn]
      rfl

theorem sort_collected (h : Logged w rounds) :
    (sortIntoReplayOrder (collectTools w.tools.rows ++ w.llms.rows.filterMap turnKeyed)).map Prod.snd =
      flatten rounds := by
  obtain ⟨L, hnum, hperm, hflat⟩ := h.order
  have hall : ((collectTools w.tools.rows ++ w.llms.rows.filterMap turnKeyed).all
      fun r => r.1.1.isSome) = true := by
    refine List.all_eq_true.mpr fun e he => ?_
    rcases List.mem_append.mp he with ht | hl
    · obtain ⟨r, hr, hx⟩ := List.mem_filterMap.mp ht
      split at hx
      · next hs =>
        cases hx
        exact h.tools r.1 r.2 (Table.mem_rows.mp hr) hs
      · cases hx
    · obtain ⟨r, hr, hx⟩ := List.mem_filterMap.mp hl
      obtain ⟨resp, hresp, rfl⟩ := Option.map_eq_some_iff.mp hx
      have his : r.2.isTurn = true := by
        by_contra hno
        rw [LlmRow.turn?, if_neg hno] at hresp
        cases hresp
      exact (h.turns r.1 r.2 (Table.mem_rows.mp hr) his).1
  rw [sortIntoReplayOrder, if_pos hall]
  -- the numbers decide the order, and the keys carry nothing else that is used
  have hmap := List.map_insertionSort
    (r := fun a b : SortKey × CapabilityResult => a.1.1.getD 0 ≤ b.1.1.getD 0)
    (s := fun a b : Nat × CapabilityResult => a.1 ≤ b.1) numberOf
    (collectTools w.tools.rows ++ w.llms.rows.filterMap turnKeyed) (by
      intro a _ b _
      exact Iff.rfl)
  rw [map_numberOf h, hnum.insertionSort_eq hperm] at hmap
  rw [← hflat, ← hmap, List.map_map]
  rfl

/-- A resume of an open, unambiguous invocation replays its rounds, the last one
cut if it is incomplete. -/
theorem Logged.resume (h : Logged w rounds) {row : StateRow} (hrow : w.state = some row)
    (hopen : row.terminalAt = none) (hamb : w.isAmbiguous = false) (hlost : w.NoLostFailure) {p : Point}
    (hp : replaySteps cfg w Point.start (capsOf (cutLast rounds)) = .ok p) :
    w.resume cfg = .ok (.resumesAt p) := by
  have hturns : collectTurns w.llms.rows = .ok (.turns (w.llms.rows.filterMap turnKeyed)) :=
    collectTurns_eq hlost fun r hr his => (h.turns r.1 r.2 (Table.mem_rows.mp hr) his).2
  rw [Wal.resume, hrow]
  dsimp only
  rw [hopen, hamb, hturns]
  dsimp only
  rw [sort_collected h, truncate_flatten, coalesce_flatten, hp]
  rfl

end FactorQ.Reducer
