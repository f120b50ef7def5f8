/-
# `FactorQ.Reducer.Regroup` — grouping the rows undoes laying them out

A live loop hands back a model result, then what its calls returned in one capability.  The
store has a row for each result.  From the rows in any order a resume gets the list back, up to
the last model result and with its batch if that is complete (`regroup_inverts_flattening`).
-/
import FactorQ.Reducer.Rounds

namespace FactorQ.Reducer

open Lib

/-- How many results the truncation drops, as the source counts them. -/
def truncatedResults (completed : List CapabilityResult) : Nat :=
  match lastModel? completed with
  | none => 0
  | some (n, requested) =>
    let recorded := completed.length - n
    if 0 < requested ∧ recorded < requested then recorded else 0

/-- The lists of capabilities a live loop produces.  Only the batch it stopped in may have fewer
results than calls. -/
inductive Produced : List CapabilityResult → Prop
  | nil : Produced []
  | stopped (response : ModelResponse) (recorded : List ToolCallResult)
      (fewer : recorded.length < response.toolCalls.length) :
      Produced (.modelResult response :: flushToolBatch recorded)
  | round (response : ModelResponse) (results : List ToolCallResult) (rest : List CapabilityResult)
      (whole : results.length = response.toolCalls.length) (next : Produced rest) :
      Produced (.modelResult response :: flushToolBatch results ++ rest)

/-- One row for a model result, one for each tool result. -/
def rowsOf : CapabilityResult → List CapabilityResult
  | .parallelToolResults results => results.map .toolResult
  | c => [c]

/-- The list up to and with its last model result, and the batch of that if it has as many
results as calls. -/
def wholePart (caps : List CapabilityResult) : List CapabilityResult :=
  match lastModel? caps with
  | none => caps
  | some (n, requested) => if ((caps.drop n).flatMap rowsOf).length = requested then caps else caps.take n

theorem rowsOf_batch (results : List ToolCallResult) :
    (flushToolBatch results).flatMap rowsOf = results.map .toolResult := by
  rcases results with _ | ⟨a, _ | ⟨b, rest⟩⟩ <;> simp [flushToolBatch, batchResult, rowsOf]

theorem rowsOf_caps (r : Round) : r.caps.flatMap rowsOf = r.flat := by
  rw [Round.caps, List.flatMap_cons, rowsOf_batch]
  rfl

theorem flatMap_rowsOf (rounds : List Round) : (capsOf rounds).flatMap rowsOf = flatten rounds := by
  induction rounds with
  | nil => rfl
  | cons r rest ih =>
    rw [capsOf, List.flatMap_cons, List.flatMap_append, rowsOf_caps]
    exact congrArg (r.flat ++ ·) ih

theorem lastModel?_caps (r : Round) : lastModel? r.caps = some (1, r.response.toolCalls.length) := by
  obtain ⟨response, results⟩ := r
  rcases results with _ | ⟨a, _ | ⟨b, rest⟩⟩ <;> rfl

/-- A list of the live loop is a list of rounds, the last of which is not answered twice. -/
theorem Produced.rounds {caps : List CapabilityResult} (h : Produced caps) :
    ∃ rounds : List Round, caps = capsOf rounds ∧
      ∀ r ∈ rounds.getLast?, r.results.length ≤ r.response.toolCalls.length := by
  induction h with
  | nil => exact ⟨[], rfl, by simp⟩
  | stopped response recorded fewer =>
    refine ⟨[⟨response, recorded⟩], by simp [capsOf, Round.caps], ?_⟩
    simpa using fewer.le
  | round response results rest whole _ ih =>
    obtain ⟨rounds, rfl, hlast⟩ := ih
    refine ⟨⟨response, results⟩ :: rounds, by simp [capsOf, Round.caps], ?_⟩
    cases rounds with
    | nil => simpa using whole.le
    | cons r rounds => simpa using hlast

theorem wholePart_capsOf {rounds : List Round}
    (hlast : ∀ r ∈ rounds.getLast?, r.results.length ≤ r.response.toolCalls.length) :
    wholePart (capsOf rounds) = capsOf (cutLast rounds) := by
  rcases List.eq_nil_or_concat rounds with rfl | ⟨init, r, rfl⟩
  · rfl
  · rw [List.concat_eq_append] at hlast ⊢
    have hle : r.results.length ≤ r.response.toolCalls.length := hlast r (by simp)
    have hbatch : ((capsOf init ++ r.caps).drop ((capsOf init).length + 1)) = flushToolBatch r.results := by
      rw [List.drop_append]
      simp [Round.caps]
    rw [wholePart, capsOf_concat, lastModel?_append _ (lastModel?_caps r), cutLast_concat, capsOf_concat]
    dsimp only
    rw [hbatch, rowsOf_batch, List.length_map, Round.cut]
    by_cases hwhole : r.results.length = r.response.toolCalls.length
    · rw [if_pos hwhole, if_neg (by omega)]
    · rw [if_neg hwhole, if_pos (by omega), List.take_append]
      simp [Round.caps, flushToolBatch]

/-- Rows with increasing numbers come back from any permutation. -/
theorem sortIntoReplayOrder_perm {rows ordered : List (SortKey × CapabilityResult)} {seqs : List Nat}
    (hseq : ordered.map (fun e => e.1.1) = seqs.map some) (hlt : seqs.Pairwise (· < ·))
    (hperm : rows.Perm ordered) : sortIntoReplayOrder rows = ordered := by
  have hall : (rows.all fun r => r.1.1.isSome) = true := by
    refine List.all_eq_true.mpr fun e he => ?_
    have hmem : e.1.1 ∈ seqs.map some := by
      rw [← hseq]
      exact List.mem_map_of_mem (hperm.subset he)
    obtain ⟨n, -, hn⟩ := List.mem_map.mp hmem
    rw [← hn]
    rfl
  have hkeys : ordered.map (fun e => e.1.1.getD 0) = seqs := by
    have hmap := congrArg (List.map fun o : Option Nat => o.getD 0) hseq
    simpa [List.map_map, Function.comp_def] using hmap
  have hnum : Numbered (fun e : SortKey × CapabilityResult => e.1.1.getD 0) ordered := by
    rw [← hkeys] at hlt
    exact List.pairwise_map.mp hlt
  rw [sortIntoReplayOrder, if_pos hall]
  exact hnum.insertionSort_eq hperm

theorem lastModel?_le {completed : List CapabilityResult} {n requested : Nat}
    (h : lastModel? completed = some (n, requested)) : n ≤ completed.length := by
  induction completed generalizing n with
  | nil => cases h
  | cons c rest ih =>
    unfold lastModel? at h
    split at h
    · next hrest =>
      cases h
      exact Nat.succ_le_succ (ih hrest)
    · cases h
      exact Nat.succ_le_succ (Nat.zero_le _)
    · cases h

theorem length_truncate (completed : List CapabilityResult) :
    (truncateIncompleteFinalBatch completed).length + truncatedResults completed = completed.length := by
  rw [truncateIncompleteFinalBatch, truncatedResults]
  cases hlast : lastModel? completed with
  | none => rfl
  | some p =>
    have hle := lastModel?_le hlast
    dsimp only
    split
    · rw [List.length_take]
      omega
    · rfl

/-- The rows of a live list, under increasing numbers and in any order, are put in order, cut
and grouped to that list without an incomplete last batch; the count returned is that of the
rows dropped. -/
theorem regroup_inverts_flattening (caps : List CapabilityResult) (hcaps : Produced caps)
    (rows ordered : List (SortKey × CapabilityResult)) (seqs : List Nat)
    (hrows : ordered.map Prod.snd = caps.flatMap rowsOf) (hseq : ordered.map (fun e => e.1.1) = seqs.map some)
    (hlt : seqs.Pairwise (· < ·)) (hperm : rows.Perm ordered) :
    coalesceToolResults (truncateIncompleteFinalBatch ((sortIntoReplayOrder rows).map Prod.snd)) =
        wholePart caps ∧
      truncatedResults ((sortIntoReplayOrder rows).map Prod.snd) =
        rows.length - (truncateIncompleteFinalBatch ((sortIntoReplayOrder rows).map Prod.snd)).length := by
  obtain ⟨rounds, rfl, hlast⟩ := hcaps.rounds
  have hlen := length_truncate (ordered.map Prod.snd)
  rw [List.length_map] at hlen
  rw [sortIntoReplayOrder_perm hseq hlt hperm, hperm.length_eq]
  refine ⟨?_, by omega⟩
  rw [hrows, flatMap_rowsOf, truncate_flatten, coalesce_flatten, wholePart_capsOf hlast]

/-- A turn that asks for the calls `ids`. -/
def turnAsking (ids : List ToolCallId) : ModelResponse :=
  ⟨ids.map fun id => .toolCall ⟨id, "read", .null⟩, .toolUse, ⟨1, 1, 0, 0, none, none, none⟩⟩

def resultFor (id : ToolCallId) : ToolCallResult := ⟨id, "ok", false, none, 0⟩

/-- A turn answered by two results, and one of which a single result of two is recorded; the rows
come newest first. -/
theorem stopped_batch_regrouped :
    coalesceToolResults (truncateIncompleteFinalBatch ((sortIntoReplayOrder
      [((some 7, 0), .toolResult (resultFor "c")), ((some 5, 0), .modelResult (turnAsking ["c", "d"])),
        ((some 3, 0), .toolResult (resultFor "b")), ((some 2, 0), .toolResult (resultFor "a")),
        ((some 1, 0), .modelResult (turnAsking ["a", "b"]))]).map Prod.snd)) =
      [.modelResult (turnAsking ["a", "b"]), .parallelToolResults [resultFor "a", resultFor "b"],
        .modelResult (turnAsking ["c", "d"])] :=
  (regroup_inverts_flattening
    [.modelResult (turnAsking ["a", "b"]), .parallelToolResults [resultFor "a", resultFor "b"],
      .modelResult (turnAsking ["c", "d"]), .toolResult (resultFor "c")]
    (.round _ [resultFor "a", resultFor "b"] _ rfl (.stopped _ [resultFor "c"] (by decide))) _
    [((some 1, 0), .modelResult (turnAsking ["a", "b"])), ((some 2, 0), .toolResult (resultFor "a")),
      ((some 3, 0), .toolResult (resultFor "b")), ((some 5, 0), .modelResult (turnAsking ["c", "d"])),
      ((some 7, 0), .toolResult (resultFor "c"))]
    [1, 2, 3, 5, 7] rfl rfl (by decide) (List.reverse_perm _)).1

end FactorQ.Reducer
