/-
# `FactorQ.Reducer.Completions` — the numbers order the rows as they were completed

A completion takes one more than the greatest number of both tables of its invocation.  Beside
the rows of every invocation, `Journal` keeps which of them became completed, in order.  One
invariant over both tables (`Ordered`) says that along this list the numbers increase and that
it lists exactly the rows with a number.
-/
import FactorQ.Lib.Interleave
import FactorQ.Reducer.Wal

namespace FactorQ.Reducer

open Lib

/-- A row of either table. -/
abbrev RowKey := ToolCallId ⊕ Nat

/-- A statement on the rows of an invocation, or the transaction of
`inject_interrupted_results`. -/
inductive WalWrite where
  | toolIntent (id : ToolCallId) (name : String) (parameters : Value)
  | toolDispatched (id : ToolCallId) (now : Int)
  | toolCompleted (id : ToolCallId) (result : String) (isError : Bool) (now : Int)
  | injectInterrupted
  | llmIntent (id : Nat) (origin : LlmCallOrigin)
  | llmDispatched (id : Nat)
  | llmCompleted (id : Nat) (body : LlmBody) (isError : Bool) (cost : ℚ) (now : Int)

namespace Wal

/-- The status and the number of a row. -/
def rowOf (w : Wal) : RowKey → Option (DispatchStatus × Option Nat)
  | .inl id => (w.tools.get? id).map fun r => (r.status, r.seq)
  | .inr id => (w.llms.get? id).map fun r => (r.status, r.seq)

def seqOf (w : Wal) (key : RowKey) : Option Nat := (w.rowOf key).bind Prod.snd

def isCompleted (w : Wal) (key : RowKey) : Bool := (w.rowOf key).any fun r => r.1 = .completed

/-- A transition that finds no row to start from changes nothing. -/
def write (render : Int → String) (w : Wal) : WalWrite → Wal
  | .toolIntent id name parameters => w.writeToolIntent id name parameters
  | .toolDispatched id now => (w.writeToolDispatched id now).getD w
  | .toolCompleted id result isError now => (w.writeToolCompleted id result isError now).getD w
  | .injectInterrupted => w.injectInterruptedResults render
  | .llmIntent id origin => w.writeLlmIntent id origin
  | .llmDispatched id => (w.writeLlmDispatched id).getD w
  | .llmCompleted id body isError cost now => (w.writeLlmCompleted id body isError cost now).getD w

/-- The rows a write completes, in the order of its statements. -/
def completes (w : Wal) : WalWrite → List RowKey
  | .toolCompleted id .. => if w.toolHas id .dispatched then [.inl id] else []
  | .injectInterrupted => w.interruptedCalls.map fun r => .inl r.1
  | .llmCompleted id .. => if w.llmHas id .dispatched then [.inr id] else []
  | .toolIntent .. | .toolDispatched .. | .llmIntent .. | .llmDispatched _ => []

/-- No intent is written again for a completed row. -/
def NotReopened (w : Wal) : WalWrite → Prop
  | .toolIntent id .. => w.isCompleted (.inl id) = false
  | .llmIntent id _ => w.isCompleted (.inr id) = false
  | _ => True

end Wal

/-- The rows of every invocation, and the order they were completed in. -/
structure Journal (Invocation : Type) where
  wal : Invocation → Wal
  completed : Invocation → List RowKey

namespace Journal

variable {Invocation : Type}

def init : Journal Invocation := ⟨fun _ => .empty, fun _ => []⟩

variable [DecidableEq Invocation]

def step (render : Int → String) (j : Journal Invocation) (a : Invocation × WalWrite) : Journal Invocation where
  wal := Function.update j.wal a.1 ((j.wal a.1).write render a.2)
  completed := Function.update j.completed a.1 (j.completed a.1 ++ (j.wal a.1).completes a.2)

def after (render : Int → String) (writes : List (Invocation × WalWrite)) : Journal Invocation :=
  writes.foldl (step render) init

end Journal

/-! ## The invariant of an invocation -/

variable {w w' : Wal} {log : List RowKey} {key : RowKey}

structure Ordered (w : Wal) (log : List RowKey) : Prop where
  increasing : ∃ seqs : List Nat, seqs.Pairwise (· < ·) ∧ log.map w.seqOf = seqs.map some
  logged : ∀ key, key ∈ log ↔ w.isCompleted key = true
  numbered : ∀ key, (w.seqOf key).isSome = w.isCompleted key

theorem Ordered.empty : Ordered .empty [] := by
  refine ⟨⟨[], .nil, rfl⟩, ?_, ?_⟩
  · rintro (id | id) <;> simp [Wal.isCompleted, Wal.rowOf, Wal.empty]
  · rintro (id | id) <;> simp [Wal.isCompleted, Wal.seqOf, Wal.rowOf, Wal.empty]

/-- A number is below the next one of its invocation, in whichever table it is. -/
theorem seqOf_lt {n : Nat} (h : w.seqOf key = some n) : n < w.nextSeq := by
  rw [Wal.nextSeq]
  cases key with
  | inl id =>
    obtain ⟨r, hr, hn⟩ := Option.bind_eq_some_iff.mp h
    obtain ⟨row, hrow, rfl⟩ := Option.map_eq_some_iff.mp hr
    have hmem : n ∈ w.tools.rows.filterMap fun r => r.2.seq :=
      List.mem_filterMap.mpr ⟨(id, row), Table.mem_rows.mpr hrow, hn⟩
    have hle := le_foldr_max hmem
    omega
  | inr id =>
    obtain ⟨r, hr, hn⟩ := Option.bind_eq_some_iff.mp h
    obtain ⟨row, hrow, rfl⟩ := Option.map_eq_some_iff.mp hr
    have hmem : n ∈ w.llms.rows.filterMap fun r => r.2.seq :=
      List.mem_filterMap.mpr ⟨(id, row), Table.mem_rows.mpr hrow, hn⟩
    have hle := le_foldr_max hmem
    omega

/-- Nothing but the row of `key` differs. -/
def SameBut (w w' : Wal) (key : RowKey) : Prop := ∀ key', key' ≠ key → w'.rowOf key' = w.rowOf key'

theorem SameBut.seqOf (h : SameBut w w' key) {key' : RowKey} (hne : key' ≠ key) : w'.seqOf key' = w.seqOf key' := by
  rw [Wal.seqOf, Wal.seqOf, h key' hne]

theorem SameBut.isCompleted (h : SameBut w w' key) {key' : RowKey} (hne : key' ≠ key) :
    w'.isCompleted key' = w.isCompleted key' := by
  rw [Wal.isCompleted, Wal.isCompleted, h key' hne]

theorem Wal.ToolWrite.sameBut {id : ToolCallId} (h : w.ToolWrite w' id) : SameBut w w' (.inl id) := by
  rintro (id' | id') hne
  · rw [Wal.rowOf, Wal.rowOf, Table.get?_of_erase h.tools fun he => hne (congrArg Sum.inl he)]
  · rw [Wal.rowOf, Wal.rowOf, h.llms]

theorem Wal.LlmWrite.sameBut {id : Nat} (h : w.LlmWrite w' id) : SameBut w w' (.inr id) := by
  rintro (id' | id') hne
  · rw [Wal.rowOf, Wal.rowOf, h.tools]
  · rw [Wal.rowOf, Wal.rowOf, Table.get?_of_erase h.llms fun he => hne (congrArg Sum.inr he)]

namespace Ordered

theorem move (h : Ordered w log) (hbut : SameBut w w' key) (hold : w.isCompleted key = false)
    {status : DispatchStatus} (hnew : w'.rowOf key = some (status, none)) (hstatus : status ≠ .completed) :
    Ordered w' log := by
  have hnew' : w'.isCompleted key = false := by simp [Wal.isCompleted, hnew, hstatus]
  have hcompleted : ∀ k, w'.isCompleted k = w.isCompleted k := by
    intro k
    by_cases hk : k = key
    · rw [hk, hold, hnew']
    · exact hbut.isCompleted hk
  refine ⟨?_, fun k => by rw [hcompleted, h.logged], fun k => ?_⟩
  · obtain ⟨seqs, hlt, hseqs⟩ := h.increasing
    refine ⟨seqs, hlt, ?_⟩
    rw [← hseqs]
    refine List.map_congr_left fun k hk => hbut.seqOf ?_
    rintro rfl
    rw [h.logged, hold] at hk
    cases hk
  · rw [hcompleted]
    by_cases hk : k = key
    · rw [hk, hold, Wal.seqOf, hnew]
      rfl
    · rw [hbut.seqOf hk, h.numbered]

theorem complete (h : Ordered w log) (hbut : SameBut w w' key) (hold : w.isCompleted key = false)
    (hnew : w'.rowOf key = some (.completed, some w.nextSeq)) : Ordered w' (log ++ [key]) := by
  have hnotin : key ∉ log := by
    intro hk
    rw [h.logged, hold] at hk
    cases hk
  have hseq : w'.seqOf key = some w.nextSeq := by rw [Wal.seqOf, hnew]; rfl
  have hdone : w'.isCompleted key = true := by simp [Wal.isCompleted, hnew]
  refine ⟨?_, fun k => ?_, fun k => ?_⟩
  · obtain ⟨seqs, hlt, hseqs⟩ := h.increasing
    refine ⟨seqs ++ [w.nextSeq], List.pairwise_append.mpr ⟨hlt, List.pairwise_singleton _ _, ?_⟩, ?_⟩
    · intro n hn m hm
      rw [List.mem_singleton.mp hm]
      have hmem : some n ∈ log.map w.seqOf := by
        rw [hseqs]
        exact List.mem_map_of_mem hn
      obtain ⟨k, -, hk⟩ := List.mem_map.mp hmem
      exact seqOf_lt hk
    · rw [List.map_append, List.map_append, ← hseqs, List.map_singleton, List.map_singleton, hseq]
      refine congrArg (· ++ _) (List.map_congr_left fun k hk => hbut.seqOf ?_)
      rintro rfl
      exact hnotin hk
  · by_cases hk : k = key
    · simp [hk, hdone]
    · rw [hbut.isCompleted hk, ← h.logged]
      simp [hk]
  · by_cases hk : k = key
    · rw [hk, hseq, hdone]
      rfl
    · rw [hbut.seqOf hk, hbut.isCompleted hk, h.numbered]

/-! ## One write -/

theorem seq_eq_none (h : Ordered w log) {status : DispatchStatus} {seq : Option Nat}
    (hrow : w.rowOf key = some (status, seq)) (hstatus : status ≠ .completed) : seq = none := by
  have hn := h.numbered key
  simpa [Wal.seqOf, Wal.isCompleted, hrow, hstatus] using hn

theorem move_tool (h : Ordered w log) {id : ToolCallId} (hbut : w.ToolWrite w' id) {row : ToolRow}
    (hrow : w.tools.get? id = some row) (hold : row.status ≠ .completed) {row' : ToolRow}
    (hnew : w'.tools.get? id = some row') (hstatus : row'.status ≠ .completed) (hseq : row'.seq = row.seq) :
    Ordered w' log := by
  have hw : w.rowOf (.inl id) = some (row.status, row.seq) := by rw [Wal.rowOf, hrow]; rfl
  have hw' : w'.rowOf (.inl id) = some (row'.status, none) := by
    rw [Wal.rowOf, hnew, ← h.seq_eq_none hw hold, ← hseq]
    rfl
  exact h.move hbut.sameBut (by simp [Wal.isCompleted, hw, hold]) hw' hstatus

theorem complete_tool (h : Ordered w log) {id : ToolCallId} (hbut : w.ToolWrite w' id) {row : ToolRow}
    (hrow : w.tools.get? id = some row) (hold : row.status ≠ .completed) {row' : ToolRow}
    (hnew : w'.tools.get? id = some row') (hstatus : row'.status = .completed) (hseq : row'.seq = some w.nextSeq) :
    Ordered w' (log ++ [.inl id]) := by
  refine h.complete hbut.sameBut (by simp [Wal.isCompleted, Wal.rowOf, hrow, hold]) ?_
  rw [Wal.rowOf, hnew, ← hstatus, ← hseq]
  rfl

/-- The transaction: each call it goes through is dispatched still when its turn comes. -/
theorem interrupted (render : Int → String) (calls : List (ToolCallId × ToolRow))
    (hnodup : (calls.map Prod.fst).Nodup) (h : Ordered w log)
    (hcalls : ∀ r ∈ calls, ∃ row, w.tools.get? r.1 = some row ∧ row.status = .dispatched) :
    Ordered (calls.foldl (fun w r => w.interrupt render r.1) w) (log ++ calls.map fun r => .inl r.1) := by
  induction calls generalizing w log with
  | nil => simpa using h
  | cons r rest ih =>
    rw [List.map_cons, List.nodup_cons] at hnodup
    obtain ⟨row, hrow, hstatus⟩ := hcalls r List.mem_cons_self
    obtain ⟨hbut, row', hrow', hstatus', hseq'⟩ := Wal.interrupt_spec render hrow
    have hfirst := h.complete_tool hbut hrow (by simp [hstatus]) hrow' hstatus' hseq'
    rw [List.foldl_cons, List.map_cons, List.append_cons]
    refine ih hnodup.2 hfirst fun r' hr' => ?_
    obtain ⟨row₁, hrow₁, hstatus₁⟩ := hcalls r' (List.mem_cons_of_mem _ hr')
    have hne : r'.1 ≠ r.1 := fun he => hnodup.1 (he ▸ List.mem_map_of_mem hr')
    exact ⟨row₁, (Table.get?_of_erase hbut.tools hne).trans hrow₁, hstatus₁⟩

theorem inject (h : Ordered w log) (render : Int → String) :
    Ordered (w.injectInterruptedResults render) (log ++ w.interruptedCalls.map fun r => .inl r.1) := by
  have hperm : w.interruptedCalls.Perm (w.tools.rows.filter fun r => r.2.status = .dispatched) :=
    List.perm_insertionSort _ _
  refine interrupted render w.interruptedCalls ?_ h fun r hr => ?_
  · refine (hperm.map Prod.fst).nodup_iff.mpr ?_
    exact w.tools.nodup.sublist (List.filter_sublist.map Prod.fst)
  · have hr := List.mem_filter.mp (hperm.subset hr)
    exact ⟨r.2, Table.mem_rows.mp hr.1, of_decide_eq_true hr.2⟩

theorem write (h : Ordered w log) (render : Int → String) (a : WalWrite) (hok : w.NotReopened a) :
    Ordered (w.write render a) (log ++ w.completes a) := by
  cases a with
  | toolIntent id name parameters =>
    obtain ⟨hbut, hrow⟩ := Wal.writeToolIntent_spec w id name parameters
    rw [Wal.completes, List.append_nil]
    have hnew : (w.write render (.toolIntent id name parameters)).rowOf (.inl id) = some (.intent, none) := by
      rw [Wal.rowOf, Wal.write, hrow]
      rfl
    exact h.move hbut.sameBut hok hnew (by decide)
  | toolDispatched id now =>
    rw [Wal.completes, List.append_nil, Wal.write]
    cases hw : w.writeToolDispatched id now with
    | none => exact h
    | some w' =>
      obtain ⟨hbut, row, hrow, hstatus, hnew⟩ := Wal.writeToolDispatched_spec hw
      exact h.move_tool hbut hrow (by simp [hstatus]) hnew (by simp) rfl
  | toolCompleted id result isError now =>
    rw [Wal.completes, Wal.write]
    by_cases hhas : w.toolHas id .dispatched = true
    · obtain ⟨w', hw⟩ : ∃ w', w.writeToolCompleted id result isError now = some w' :=
        ⟨_, by rw [Wal.writeToolCompleted, if_pos hhas]⟩
      obtain ⟨hbut, row, hrow, hstatus, hnew⟩ := Wal.writeToolCompleted_spec hw
      rw [if_pos hhas, hw]
      exact h.complete_tool hbut hrow (by simp [hstatus]) hnew rfl rfl
    · rw [if_neg hhas, List.append_nil, Wal.writeToolCompleted, if_neg hhas]
      exact h
  | injectInterrupted => exact h.inject render
  | llmIntent id origin =>
    obtain ⟨hbut, hrow⟩ := Wal.writeLlmIntent_spec w id origin
    rw [Wal.completes, List.append_nil]
    have hnew : (w.write render (.llmIntent id origin)).rowOf (.inr id) = some (.intent, none) := by
      rw [Wal.rowOf, Wal.write, hrow]
      rfl
    exact h.move hbut.sameBut hok hnew (by decide)
  | llmDispatched id =>
    rw [Wal.completes, List.append_nil, Wal.write]
    cases hw : w.writeLlmDispatched id with
    | none => exact h
    | some w' =>
      obtain ⟨hbut, row, hrow, hstatus, hnew⟩ := Wal.writeLlmDispatched_spec hw
      have hkey : w.rowOf (.inr id) = some (.intent, row.seq) := by rw [Wal.rowOf, hrow, ← hstatus]; rfl
      have hkey' : w'.rowOf (.inr id) = some (.dispatched, none) := by
        rw [Wal.rowOf, hnew, ← h.seq_eq_none hkey (by decide)]
        rfl
      exact h.move hbut.sameBut (by simp [Wal.isCompleted, hkey]) hkey' (by decide)
  | llmCompleted id body isError cost now =>
    rw [Wal.completes, Wal.write]
    by_cases hhas : w.llmHas id .dispatched = true
    · obtain ⟨w', hw⟩ : ∃ w', w.writeLlmCompleted id body isError cost now = some w' :=
        ⟨_, by rw [Wal.writeLlmCompleted, if_pos hhas]⟩
      obtain ⟨hbut, row, hrow, hstatus, hnew⟩ := Wal.writeLlmCompleted_spec hw
      rw [if_pos hhas, hw]
      refine h.complete hbut.sameBut (by simp [Wal.isCompleted, Wal.rowOf, hrow, hstatus]) ?_
      rw [Option.getD_some, Wal.rowOf, hnew]
      rfl
    · rw [if_neg hhas, List.append_nil, Wal.writeLlmCompleted, if_neg hhas]
      exact h

theorem inj (h : Ordered w log) {key key' : RowKey} {n : Nat} (hk : w.seqOf key = some n)
    (hk' : w.seqOf key' = some n) : key = key' := by
  have hmem : ∀ {k}, w.seqOf k = some n → k ∈ log := by
    intro k hk
    rw [h.logged, ← h.numbered, hk]
    rfl
  obtain ⟨seqs, hlt, hseqs⟩ := h.increasing
  have hnodup : (log.map w.seqOf).Nodup := by
    rw [hseqs]
    exact (hlt.imp Nat.ne_of_lt).map _ fun _ _ hne he => hne (Option.some.inj he)
  exact List.inj_on_of_nodup_map hnodup (hmem hk) (hmem hk') (hk.trans hk'.symm)

end Ordered

/-! ## Every interleaving -/

/-- After any writes for any invocations of which none opens a completed row again, the numbers
of an invocation are distinct over both tables, a row has one exactly if it is completed, and
they increase in the order the rows became completed in. -/
theorem completion_numbers_order {Invocation : Type} [DecidableEq Invocation] (render : Int → String)
    (writes : List (Invocation × WalWrite))
    (hwrites : Permitted (Journal.step render) (fun j a => (j.wal a.1).NotReopened a.2) .init writes)
    (i : Invocation) :
    (∀ key key' n, ((Journal.after render writes).wal i).seqOf key = some n →
      ((Journal.after render writes).wal i).seqOf key' = some n → key = key') ∧
    (∀ key, (((Journal.after render writes).wal i).seqOf key).isSome =
      ((Journal.after render writes).wal i).isCompleted key) ∧
    (∀ key, key ∈ (Journal.after render writes).completed i ↔
      ((Journal.after render writes).wal i).isCompleted key = true) ∧
    ∃ seqs : List Nat, seqs.Pairwise (· < ·) ∧
      ((Journal.after render writes).completed i).map ((Journal.after render writes).wal i).seqOf =
        seqs.map some := by
  have hinv : ∀ i, Ordered ((Journal.after render writes).wal i) ((Journal.after render writes).completed i) := by
    have hstep : ∀ (j : Journal Invocation) (a : Invocation × WalWrite), (j.wal a.1).NotReopened a.2 →
        (∀ i, Ordered (j.wal i) (j.completed i)) →
        ∀ i, Ordered ((Journal.step render j a).wal i) ((Journal.step render j a).completed i) := by
      intro j a hok hj i
      by_cases hi : i = a.1
      · subst hi
        simpa [Journal.step] using (hj a.1).write render a.2 hok
      · simpa [Journal.step, hi] using hj i
    exact Permitted.inv hstep hwrites fun _ => .empty
  exact ⟨fun key key' n => (hinv i).inj, (hinv i).numbered, (hinv i).logged, (hinv i).increasing⟩

/-- A model call and two tool calls, one closed by its result and one by the operator. -/
def closedCalls : List (Unit × WalWrite) :=
  [((), .llmIntent 0 .agentTurn), ((), .llmDispatched 0), ((), .llmCompleted 0 (.error "overloaded") true 0 1),
    ((), .toolIntent "a" "read" .null), ((), .toolDispatched "a" 2), ((), .toolIntent "b" "read" .null),
    ((), .toolDispatched "b" 3), ((), .toolCompleted "b" "ok" false 4), ((), .injectInterrupted)]

theorem closed_calls_ordered :
    (Journal.after (fun _ => "") closedCalls).completed () = [.inr 0, .inl "b", .inl "a"] ∧
    ∃ seqs : List Nat, seqs.Pairwise (· < ·) ∧
      ((Journal.after (fun _ => "") closedCalls).completed ()).map
        ((Journal.after (fun _ => "") closedCalls).wal ()).seqOf = seqs.map some :=
  ⟨by decide +kernel, (completion_numbers_order (fun _ => "") closedCalls
    ⟨rfl, trivial, trivial, rfl, trivial, rfl, trivial, trivial, trivial, trivial⟩ ()).2.2.2⟩

end FactorQ.Reducer
