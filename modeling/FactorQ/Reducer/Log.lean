/-
# `FactorQ.Reducer.Log` — what each write does to the history

A write is about one row.  It leaves the history alone, or it closes a row and
the history grows by that row's entry at its end; the number a completion takes
is above all others.  The one exception is the row of a call nobody implements,
which is opened again after it was closed: that takes the last entry back.

With the ids of the invocation distinct, the row of a call is closed exactly when
the round of the call has its result, at the call's place.
-/
import FactorQ.Reducer.Rounds

namespace FactorQ.Reducer

open Lib Wal

variable {w w' : Wal} {rounds rounds' : List Round}

/-- The entry of one call's row. -/
def Wal.toolEntry? (w : Wal) (id : ToolCallId) : Option (Nat × CapabilityResult) :=
  (w.tools.get? id).bind fun row => toolEntry (id, row)

def Wal.turnEntry? (w : Wal) (id : Nat) : Option (Nat × CapabilityResult) :=
  (w.llms.get? id).bind fun row => turnEntry (id, row)

variable {id : ToolCallId}

theorem toolEntry?_eq_none (h : ∀ row, w.tools.get? id = some row → row.status ≠ .completed) :
    w.toolEntry? id = none := by
  unfold Wal.toolEntry?
  cases hg : w.tools.get? id with
  | none => rfl
  | some row => simp [toolEntry, h row hg]

theorem turnEntry?_eq_none {id : Nat} (h : ∀ row, w.llms.get? id = some row → row.isTurn = false) :
    w.turnEntry? id = none := by
  unfold Wal.turnEntry?
  cases hg : w.llms.get? id with
  | none => rfl
  | some row => simp [turnEntry, LlmRow.turn?, h row hg]

/-- Both sides of a write, with the row it is about singled out. -/
theorem Wal.ToolWrite.entries (h : ToolWrite w w' id) :
    ∃ rest, w.entries.Perm ((w.toolEntry? id).toList ++ rest) ∧
      w'.entries.Perm ((w'.toolEntry? id).toList ++ rest) := by
  refine ⟨(w.tools.erase id).rows.filterMap toolEntry ++ w.llms.rows.filterMap turnEntry, ?_, ?_⟩
  · rw [← List.append_assoc]
    exact (Table.filterMap_perm_erase w.tools id toolEntry).append_right _
  · rw [← List.append_assoc, ← h.tools, ← h.llms]
    exact (Table.filterMap_perm_erase w'.tools id toolEntry).append_right _

theorem Wal.LlmWrite.entries {id : Nat} (h : LlmWrite w w' id) :
    ∃ rest, w.entries.Perm ((w.turnEntry? id).toList ++ rest) ∧
      w'.entries.Perm ((w'.turnEntry? id).toList ++ rest) := by
  refine ⟨w.tools.rows.filterMap toolEntry ++ (w.llms.erase id).rows.filterMap turnEntry, ?_, ?_⟩
  · refine ((Table.filterMap_perm_erase w.llms id turnEntry).append_left _).trans ?_
    exact List.perm_append_comm_assoc _ _ _
  · rw [← h.tools, ← h.llms]
    refine ((Table.filterMap_perm_erase w'.llms id turnEntry).append_left _).trans ?_
    exact List.perm_append_comm_assoc _ _ _

/-! ## The history after a write -/

theorem Logged.empty : Logged Wal.empty [] := ⟨InOrder.nil, Table.All.empty, Table.All.empty⟩

/-- Notices and the state row are not part of the history. -/
theorem Logged.frame (h : Logged w rounds) (ht : w'.tools = w.tools) (hl : w'.llms = w.llms) :
    Logged w' rounds := by
  refine ⟨?_, ht ▸ h.tools, hl ▸ h.turns⟩
  have he : w'.entries = w.entries := by rw [Wal.entries, Wal.entries, ht, hl]
  rw [he]
  exact h.order

theorem Logged.toolKept (h : Logged w rounds) (hw : ToolWrite w w' id) (hold : w.toolEntry? id = none)
    (hnew : ∀ row, w'.tools.get? id = some row → row.status ≠ .completed) : Logged w' rounds := by
  obtain ⟨rest, hp, hp'⟩ := hw.entries
  rw [hold] at hp
  rw [toolEntry?_eq_none hnew] at hp'
  refine ⟨h.order.perm (hp'.trans hp.symm), ?_, hw.llms ▸ h.turns⟩
  exact h.tools.write hw.tools fun row hg hc => absurd hc (hnew row hg)

theorem Logged.toolClosed (h : Logged w rounds) (hw : ToolWrite w w' id) {row : ToolRow}
    (hold : w.toolEntry? id = none) (hrow : w'.tools.get? id = some row) (hc : row.status = .completed)
    (hseq : row.seq = some w.nextSeq)
    (hflat : flatten rounds' = flatten rounds ++ [.toolResult (toolRowToResult id row)]) :
    Logged w' rounds' := by
  obtain ⟨rest, hp, hp'⟩ := hw.entries
  have hnew : w'.toolEntry? id = some (w.nextSeq, .toolResult (toolRowToResult id row)) := by
    rw [Wal.toolEntry?, hrow, Option.bind_some, toolEntry, if_pos hc, hseq]
    rfl
  rw [hold] at hp
  rw [hnew] at hp'
  refine ⟨?_, ?_, hw.llms ▸ h.turns⟩
  · rw [hflat]
    exact h.order.snoc (fun e he => entries_lt_nextSeq he) (hp'.trans (hp.symm.cons _))
  · refine h.tools.write hw.tools fun row' hg _ => ?_
    rw [hrow] at hg
    cases hg
    rw [hseq]
    rfl

variable {r : ToolCallResult}

theorem Logged.toolReopened (h : Logged w rounds') (hw : ToolWrite w w' id) (hid : r.toolCallId = id)
    (hflat : flatten rounds' = flatten rounds ++ [.toolResult r])
    (hnew : ∀ row, w'.tools.get? id = some row → row.status ≠ .completed) : Logged w' rounds := by
  obtain ⟨rest, hp, hp'⟩ := hw.entries
  rw [toolEntry?_eq_none hnew] at hp'
  have horder := h.order
  rw [hflat] at horder
  -- the only entry with a result of this call is that of its row
  have hone : ∀ n, (n, CapabilityResult.toolResult r) ∈ w.entries → w.toolEntry? id = some (n, .toolResult r) := by
    intro n hn
    rcases List.mem_append.mp hn with ht | hl
    · obtain ⟨x, hx, he⟩ := List.mem_filterMap.mp ht
      have hrow := Table.mem_rows.mp hx
      have hkey : x.1 = id := by
        have heq := (toolEntry_eq_some he).2.2
        cases heq
        exact hid
      rw [Wal.toolEntry?, ← hkey, hrow, Option.bind_some]
      exact he
    · obtain ⟨x, hx, he⟩ := List.mem_filterMap.mp hl
      obtain ⟨resp, _, _, heq⟩ := turnEntry_eq_some he
      cases heq
  obtain ⟨n, hn⟩ := horder.mem_iff.mp (List.mem_append_right _ (List.mem_singleton_self _))
  rw [hone n hn] at hp
  refine ⟨(horder.unsnoc ?_ hp).perm hp', ?_, hw.llms ▸ h.turns⟩
  · intro m hm
    exact Option.some.inj ((hone m hm).symm.trans (hone n hn))
  · exact h.tools.write hw.tools fun row hg hc => absurd hc (hnew row hg)

theorem Logged.llmKept (h : Logged w rounds) {id : Nat} (hw : LlmWrite w w' id)
    (hold : w.turnEntry? id = none) (hnew : ∀ row, w'.llms.get? id = some row → row.isTurn = false) :
    Logged w' rounds := by
  obtain ⟨rest, hp, hp'⟩ := hw.entries
  rw [hold] at hp
  rw [turnEntry?_eq_none hnew] at hp'
  refine ⟨h.order.perm (hp'.trans hp.symm), hw.tools ▸ h.tools, ?_⟩
  refine h.turns.write hw.llms fun row hg his => ?_
  rw [hnew row hg] at his
  cases his

theorem Logged.turnClosed (h : Logged w rounds) {id : Nat} (hw : LlmWrite w w' id) {row : LlmRow}
    {resp : ModelResponse} (hold : w.turnEntry? id = none) (hrow : w'.llms.get? id = some row)
    (hturn : row.turn? = some resp) (hseq : row.seq = some w.nextSeq) :
    Logged w' (rounds ++ [⟨resp, []⟩]) := by
  obtain ⟨rest, hp, hp'⟩ := hw.entries
  have hnew : w'.turnEntry? id = some (w.nextSeq, .modelResult resp) := by
    rw [Wal.turnEntry?, hrow, Option.bind_some, turnEntry, hturn, hseq]
    rfl
  rw [hold] at hp
  rw [hnew] at hp'
  refine ⟨?_, hw.tools ▸ h.tools, ?_⟩
  · rw [flatten_concat]
    exact h.order.snoc (fun e he => entries_lt_nextSeq he) (hp'.trans (hp.symm.cons _))
  · refine h.turns.write hw.llms fun row' hg _ => ?_
    rw [hrow] at hg
    cases hg
    rw [hseq, hturn]
    exact ⟨rfl, rfl⟩

/-! ## Rows and results -/

theorem mem_flatten_toolResult : .toolResult r ∈ flatten rounds ↔ ∃ x ∈ rounds, r ∈ x.results := by
  simp [flatten, Round.flat]

theorem Logged.mem_results (h : Logged w rounds) :
    (∃ x ∈ rounds, r ∈ x.results) ↔
      ∃ row, w.tools.get? r.toolCallId = some row ∧ row.status = .completed ∧
        r = toolRowToResult r.toolCallId row := by
  rw [← mem_flatten_toolResult, h.order.mem_iff]
  constructor
  · rintro ⟨n, hn⟩
    rcases List.mem_append.mp hn with ht | hl
    · obtain ⟨x, hx, he⟩ := List.mem_filterMap.mp ht
      obtain ⟨hs, _, heq⟩ := toolEntry_eq_some he
      cases heq
      exact ⟨x.2, Table.mem_rows.mp hx, hs, rfl⟩
    · obtain ⟨x, _, he⟩ := List.mem_filterMap.mp hl
      obtain ⟨resp, _, _, heq⟩ := turnEntry_eq_some he
      cases heq
  · rintro ⟨row, hrow, hs, heq⟩
    obtain ⟨n, hn⟩ := Option.isSome_iff_exists.mp (h.tools _ row hrow hs)
    refine ⟨n, List.mem_append_left _ (List.mem_filterMap.mpr ⟨_, Table.mem_rows.mpr hrow, ?_⟩)⟩
    rw [toolEntry, if_pos hs, hn, ← heq]
    rfl

theorem Logged.results_recorded (h : Logged w rounds) {x : Round} (hx : x ∈ rounds) :
    x.results.map ToolCallResult.recorded = x.results := by
  refine (List.map_congr_left fun r hr => ?_).trans (List.map_id _)
  obtain ⟨row, _, _, heq⟩ := h.mem_results.mp ⟨x, hx, hr⟩
  rw [heq]
  rfl

/-! ## The ids of the invocation -/

def turnOf (r : Nat × LlmRow) : Option ModelResponse := r.2.turn?

/-- The ids of the calls the model has requested. -/
def Wal.requestedIds (w : Wal) : List ToolCallId :=
  (w.llms.rows.filterMap turnOf).flatMap fun resp => resp.toolCalls.map ToolCallRequest.toolCallId

def requestedIds (rounds : List Round) : List ToolCallId := rounds.flatMap Round.callIds

def callIdsOf : CapabilityResult → List ToolCallId
  | .modelResult r => r.toolCalls.map ToolCallRequest.toolCallId
  | _ => []

theorem flatMap_callIdsOf_results (rs : List ToolCallResult) :
    (rs.map CapabilityResult.toolResult).flatMap callIdsOf = [] := by
  induction rs with
  | nil => rfl
  | cons r rs ih => exact ih

theorem flatMap_callIdsOf_flatten (rounds : List Round) :
    (flatten rounds).flatMap callIdsOf = requestedIds rounds := by
  induction rounds with
  | nil => rfl
  | cons r rest ih =>
    show (r.flat ++ flatten rest).flatMap callIdsOf = r.callIds ++ requestedIds rest
    rw [List.flatMap_append, ih, Round.flat, List.flatMap_cons, flatMap_callIdsOf_results,
      List.append_nil]
    rfl

theorem flatMap_callIdsOf_tools (rows : List (ToolCallId × ToolRow)) :
    ((rows.filterMap toolEntry).map Prod.snd).flatMap callIdsOf = [] := by
  refine List.flatMap_eq_nil_iff.mpr fun c hc => ?_
  obtain ⟨e, he, rfl⟩ := List.mem_map.mp hc
  obtain ⟨r, _, hr⟩ := List.mem_filterMap.mp he
  rw [(toolEntry_eq_some hr).2.2]
  rfl

/-- The rows and the rounds agree on what was requested. -/
theorem Logged.requestedIds_perm (h : Logged w rounds) : w.requestedIds.Perm (requestedIds rounds) := by
  have hperm := h.order.map_snd_perm.flatMap_right callIdsOf
  rw [flatMap_callIdsOf_flatten, Wal.entries, List.map_append, List.flatMap_append, flatMap_callIdsOf_tools,
    List.nil_append] at hperm
  refine (List.Perm.of_eq ?_).trans hperm
  -- a turn has a number, so its entry is there
  have hall : ∀ r ∈ w.llms.rows, r.2.turn?.isSome = true → r.2.seq.isSome = true := by
    intro r hr hsome
    refine (h.turns r.1 r.2 (Table.mem_rows.mp hr) ?_).1
    by_contra hno
    rw [LlmRow.turn?, if_neg hno] at hsome
    cases hsome
  unfold Wal.requestedIds
  revert hall
  induction w.llms.rows with
  | nil =>
    intro _
    rfl
  | cons r rest ih =>
    intro hall
    have ih := ih fun s hs => hall s (List.mem_cons_of_mem _ hs)
    have hr := hall r List.mem_cons_self
    cases hturn : turnOf r with
    | none =>
      have hentry : turnEntry r = none := by rw [turnEntry, ← turnOf, hturn, Option.bind_none]
      rw [List.filterMap_cons_none hturn, List.filterMap_cons_none hentry]
      exact ih
    | some resp =>
      obtain ⟨n, hn⟩ := Option.isSome_iff_exists.mp (hr (by rw [← turnOf, hturn]; rfl))
      have hentry : turnEntry r = some (n, .modelResult resp) := by
        rw [turnEntry, ← turnOf, hturn, Option.bind_some, hn]
        rfl
      rw [List.filterMap_cons_some hturn, List.filterMap_cons_some hentry, List.flatMap_cons, ih]
      rfl

/-- A row that holds no answered turn holds no requests. -/
theorem turns_perm_erase {id : Nat} (hold : ∀ row, w.llms.get? id = some row → row.turn? = none) :
    (w.llms.rows.filterMap turnOf).Perm ((w.llms.erase id).rows.filterMap turnOf) := by
  have hnone : ((w.llms.get? id).bind fun row => turnOf (id, row)) = none := by
    cases hg : w.llms.get? id with
    | none => rfl
    | some row => exact hold row hg
  have hp := Table.filterMap_perm_erase w.llms id turnOf
  rw [hnone] at hp
  exact hp

/-- A write adds requests and takes none away, unless it hits an answered turn. -/
theorem requestedIds_subperm {id : Nat} (hw : LlmWrite w w' id)
    (hold : ∀ row, w.llms.get? id = some row → row.turn? = none) :
    w.requestedIds.Subperm w'.requestedIds := by
  have hp' := Table.filterMap_perm_erase w'.llms id turnOf
  rw [hw.llms] at hp'
  refine ((turns_perm_erase hold).flatMap_right _).subperm.trans
    (List.Subperm.trans ?_ (hp'.flatMap_right _).symm.subperm)
  rw [List.flatMap_append]
  exact (List.sublist_append_right _ _).subperm

theorem requestedIds_turn {id : Nat} (hw : LlmWrite w w' id)
    (hold : ∀ row, w.llms.get? id = some row → row.turn? = none) {row : LlmRow} {resp : ModelResponse}
    (hrow : w'.llms.get? id = some row) (hturn : row.turn? = some resp) :
    w'.requestedIds.Perm (resp.toolCalls.map ToolCallRequest.toolCallId ++ w.requestedIds) := by
  have hp' := Table.filterMap_perm_erase w'.llms id turnOf
  have hsome : ((w'.llms.get? id).bind fun row => turnOf (id, row)) = some resp := by
    rw [hrow]
    exact hturn
  rw [hsome, hw.llms] at hp'
  refine (hp'.flatMap_right _).trans ?_
  rw [Option.toList_some, List.flatMap_append, List.flatMap_singleton]
  exact ((turns_perm_erase hold).flatMap_right _).symm.append_left _

/-! ## Where a closed call stands -/

section Distinct

variable {rs : List Round} {x : Round}

theorem getElem?_of_prefix {α : Type} {l m : List α} {i : Nat} {a : α} (h : l <+: m) (ha : l[i]? = some a) :
    m[i]? = some a := by
  obtain ⟨t, rfl⟩ := h
  rw [List.getElem?_append_left (List.getElem?_eq_some_iff.mp ha).1, ha]

/-- The result of a call is at the call's place in the round of the call. -/
theorem results_getElem? (hnd : (requestedIds (rs ++ [x])).Nodup) (hans : ∀ y ∈ rs ++ [x], y.Answers)
    (hr : ∃ y ∈ rs ++ [x], r ∈ y.results) {n : Nat} (hn : x.callIds[n]? = some r.toolCallId) :
    x.results[n]? = some r := by
  have hid : ∀ y : Round, y.Answers → r ∈ y.results → r.toolCallId ∈ y.callIds := by
    intro y hy hmem
    exact hy.subset (List.mem_map_of_mem hmem)
  obtain ⟨y, hy, hmem⟩ := hr
  unfold requestedIds at hnd
  rw [List.flatMap_append, List.flatMap_singleton, List.nodup_append] at hnd
  rcases List.mem_append.mp hy with hrs | hx
  · -- an earlier round would share the id
    have hin : r.toolCallId ∈ rs.flatMap Round.callIds :=
      List.mem_flatMap.mpr ⟨y, hrs, hid y (hans y hy) hmem⟩
    exact absurd rfl (hnd.2.2 _ hin _ (List.mem_of_getElem? hn))
  · rw [List.mem_singleton.mp hx] at hmem
    obtain ⟨i, hi⟩ := List.mem_iff_getElem?.mp hmem
    have hmap : (x.results.map ToolCallResult.toolCallId)[i]? = some r.toolCallId := by
      rw [List.getElem?_map, hi]
      rfl
    have hcall : x.callIds[i]? = some r.toolCallId := getElem?_of_prefix (hans x (by simp)) hmap
    have hlt : i < x.callIds.length := (List.getElem?_eq_some_iff.mp hcall).1
    rw [← (List.getElem?_inj hlt hnd.2.1).mp (hcall.trans hn.symm)]
    exact hi

end Distinct

end FactorQ.Reducer
