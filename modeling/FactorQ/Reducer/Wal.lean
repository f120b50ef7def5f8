/-
# `FactorQ.Reducer.Wal` — one invocation's rows in the worker store

The write-ahead log of an invocation: a row for each tool call and each model
call, moved from intent through dispatched to completed, the host notices, and
the state row.  Each definition is one statement of the store.  A transition
that finds no row in the state it starts from is an error of the store, `none`
here.

A completion takes the next number of a sequence shared by both tables; that
number, not a clock, is what a resume orders the rows by.
-/
import FactorQ.Lib.Table
import FactorQ.Reducer.Harness

namespace FactorQ.Reducer

open Lib

inductive DispatchStatus where
  | intent
  | dispatched
  | completed
deriving DecidableEq

/-- A row of `tool_dispatch`, keyed by the call's id. -/
structure ToolRow where
  toolName : String
  parameters : Value
  status : DispatchStatus
  dispatchedAt : Option Int
  result : Option String
  isError : Option Bool
  completedAt : Option Int
  seq : Option Nat

inductive LlmCallOrigin where
  | agentTurn
  | sampling (server : String)
  | elicitation (server : String)
deriving DecidableEq

/-- What the response column holds: a turn, or the text of an error. -/
inductive LlmBody where
  | response (r : ModelResponse)
  | error (message : String)

/-- A row of `llm_dispatch`, keyed by the request's id. -/
structure LlmRow where
  origin : LlmCallOrigin
  status : DispatchStatus
  response : Option LlmBody
  isError : Option Bool
  costUsd : Option ℚ
  completedAt : Option Int
  seq : Option Nat
  deferredAt : Option Int

/-- A row of `host_notice`. -/
structure NoticeRow where
  stepIndex : Nat
  seq : Nat
  kind : String
  body : String
deriving DecidableEq

inductive PhaseLabel where
  | awaitingModel
  | dispatchingTools
  | completed
  | failed
  | deferred
deriving DecidableEq

/-- The row of `invocation_state`; `archivePending` is the hand-off to the archive. -/
structure StateRow where
  phase : PhaseLabel
  blob : HarnessState
  stepIndex : Nat
  terminalAt : Option Int
  archivePending : Bool

structure Wal where
  state : Option StateRow
  tools : Table ToolCallId ToolRow
  llms : Table Nat LlmRow
  notices : List NoticeRow

theorem le_foldr_max {l : List Nat} {n : Nat} (h : n ∈ l) : n ≤ l.foldr max 0 := by
  induction l with
  | nil => cases h
  | cons m l ih =>
    rw [List.foldr_cons]
    rcases List.mem_cons.mp h with rfl | hm
    · exact Nat.le_max_left _ _
    · exact Nat.le_trans (ih hm) (Nat.le_max_right _ _)

namespace Wal

def empty : Wal := ⟨none, Table.empty, Table.empty, []⟩

/-! ## Tool calls -/

/-- `1 + MAX(seq)` over both tables. -/
def nextSeq (w : Wal) : Nat :=
  1 + max ((w.tools.rows.filterMap fun r => r.2.seq).foldr max 0)
    ((w.llms.rows.filterMap fun r => r.2.seq).foldr max 0)

/-- `INSERT OR REPLACE`: a row under the same id goes. -/
def writeToolIntent (w : Wal) (id : ToolCallId) (name : String) (parameters : Value) : Wal :=
  { w with tools := (w.tools.erase id).insertNew id ⟨name, parameters, .intent, none, none, none, none, none⟩ }

def toolHas (w : Wal) (id : ToolCallId) (status : DispatchStatus) : Bool :=
  (w.tools.get? id).any fun r => r.status = status

def writeToolDispatched (w : Wal) (id : ToolCallId) (now : Int) : Option Wal :=
  if w.toolHas id .intent then
    some { w with tools := w.tools.modify id fun r =>
      { r with status := .dispatched, dispatchedAt := some now } }
  else none

def writeToolCompleted (w : Wal) (id : ToolCallId) (result : String) (isError : Bool) (now : Int) :
    Option Wal :=
  if w.toolHas id .dispatched then
    some { w with tools := w.tools.modify id fun r =>
      { r with status := .completed, result := some result, isError := some isError,
               completedAt := some now, seq := some w.nextSeq } }
  else none

/-- What stands in for the result of a call the crash cut off; `rendered` is the
time it was dispatched at. -/
def interruptedResultPayload (rendered : String) : String :=
  "\x7b\"interrupted\":true,\"notice\":\"HOST NOTICE: this tool call was interrupted by a runtime crash " ++
    "after being dispatched at " ++ rendered ++ ". Whether it executed — fully, partially, or not at all — " ++
    "is unknown. Verify the relevant state (files, git, external services) before building on anything; " ++
    "re-run it only if you have confirmed it did not take effect.\"\x7d"

/-- Close one interrupted call. -/
def interrupt (render : Int → String) (w : Wal) (id : ToolCallId) : Wal :=
  { w with tools := w.tools.modify id fun r =>
      { r with status := .completed, result := some (interruptedResultPayload (render (r.dispatchedAt.getD 0))),
               isError := some true, completedAt := r.dispatchedAt, seq := some w.nextSeq } }

/-- The calls a crash cut off, by the time they were dispatched at and their id. -/
def interruptedCalls (w : Wal) : List (ToolCallId × ToolRow) :=
  (w.tools.rows.filter fun r => r.2.status = .dispatched).insertionSort fun a b =>
    a.2.dispatchedAt.getD 0 < b.2.dispatchedAt.getD 0 ∨
      a.2.dispatchedAt.getD 0 = b.2.dispatchedAt.getD 0 ∧ a.1 ≤ b.1

/-- One transaction over all of them; `render` writes a time out. -/
def injectInterruptedResults (w : Wal) (render : Int → String) : Wal :=
  w.interruptedCalls.foldl (fun w r => w.interrupt render r.1) w

/-! ## Model calls -/

/-- A request id nobody has used. -/
def freshRequest (w : Wal) : Nat := 1 + (w.llms.rows.map Prod.fst).foldr max 0

def writeLlmIntent (w : Wal) (id : Nat) (origin : LlmCallOrigin) : Wal :=
  { w with llms := (w.llms.erase id).insertNew id ⟨origin, .intent, none, none, none, none, none, none⟩ }

def llmHas (w : Wal) (id : Nat) (status : DispatchStatus) : Bool :=
  (w.llms.get? id).any fun r => r.status = status

def writeLlmDispatched (w : Wal) (id : Nat) : Option Wal :=
  if w.llmHas id .intent then
    some { w with llms := w.llms.modify id fun r => { r with status := .dispatched } }
  else none

def writeLlmCompleted (w : Wal) (id : Nat) (body : LlmBody) (isError : Bool) (cost : ℚ) (now : Int) :
    Option Wal :=
  if w.llmHas id .dispatched then
    some { w with llms := w.llms.modify id fun r =>
      { r with status := .completed, response := some body, isError := some isError,
               costUsd := some cost, completedAt := some now, seq := some w.nextSeq } }
  else none

/-- Stamp the call a deferral was decided on. -/
def markLlmDeferred (w : Wal) (id : Nat) (now : Int) : Option Wal :=
  if (w.llms.get? id).any fun r => r.status = .completed && r.isError = some true then
    some { w with llms := w.llms.modify id fun r => { r with deferredAt := some now } }
  else none

/-! ## Notices and the state row -/

/-- A plain insert: the key `(step_index, seq)` must be free. -/
def insertHostNotice (w : Wal) (n : NoticeRow) : Option Wal :=
  if w.notices.any fun m => m.stepIndex = n.stepIndex && m.seq = n.seq then none
  else some { w with notices := w.notices ++ [n] }

/-- The notices of one step, in the order of their numbers. -/
def noticesAt (w : Wal) (stepIndex : Nat) : List NoticeRow :=
  (w.notices.filter fun n => n.stepIndex = stepIndex).insertionSort fun a b => a.seq ≤ b.seq

/-- The guarded upsert: a terminal row stays as it is, and the hand-off column is
not written here. -/
def upsertInvocationState (w : Wal) (row : StateRow) : Wal :=
  match w.state with
  | none => { w with state := some { row with archivePending := false } }
  | some old =>
    if old.terminalAt.isSome then w
    else { w with state := some { row with archivePending := old.archivePending } }

/-- `ensure_terminal`. -/
def ensureTerminal (w : Wal) (phase : PhaseLabel) (now : Int) : Wal :=
  match w.state with
  | none => w
  | some row => w.upsertInvocationState { row with phase := phase, terminalAt := some now }

/-- `mark_deferred`: the phase of a row that is there and not terminal. -/
def markDeferred (w : Wal) : Wal :=
  match w.state with
  | none => w
  | some row => if row.terminalAt.isSome then w else w.upsertInvocationState { row with phase := .deferred }

def setArchivePending (w : Wal) : Wal :=
  { w with state := w.state.map fun row =>
      if row.terminalAt.isSome then { row with archivePending := true } else row }

/-- `mark_invocation_operator_terminal`: a row that is there and not terminal. -/
def markOperatorTerminal (w : Wal) (phase : PhaseLabel) (now : Int) : Wal :=
  { w with state := w.state.map fun row =>
      if row.terminalAt.isSome then row else { row with phase := phase, terminalAt := some now } }

/-! ## What the rows say -/

/-- A row is in the window a crash leaves unclear. -/
def isAmbiguous (w : Wal) : Bool :=
  w.tools.rows.any (fun r => r.2.status = .dispatched) ||
    w.llms.rows.any fun r => r.2.status = .dispatched

/-- The cost of every completed call, whoever asked for it. -/
def totalCost (w : Wal) : ℚ :=
  ((w.llms.rows.filter fun r => r.2.status = .completed).map fun r => r.2.costUsd.getD 0).sum

/-! ## The row a write is about -/

/-- Nothing but the tool row of `id` differs. -/
structure ToolWrite (w w' : Wal) (id : ToolCallId) : Prop where
  tools : w'.tools.erase id = w.tools.erase id
  llms : w'.llms = w.llms
  notices : w'.notices = w.notices
  state : w'.state = w.state

/-- Nothing but the model-call row of `id` differs. -/
structure LlmWrite (w w' : Wal) (id : Nat) : Prop where
  tools : w'.tools = w.tools
  llms : w'.llms.erase id = w.llms.erase id
  notices : w'.notices = w.notices
  state : w'.state = w.state

/-- Nothing but the state row differs. -/
structure StateWrite (w w' : Wal) : Prop where
  tools : w'.tools = w.tools
  llms : w'.llms = w.llms
  notices : w'.notices = w.notices

variable {w w' : Wal}

theorem upsertInvocationState_spec (w : Wal) (row : StateRow) : StateWrite w (w.upsertInvocationState row) := by
  unfold upsertInvocationState
  split
  · exact ⟨rfl, rfl, rfl⟩
  · split <;> exact ⟨rfl, rfl, rfl⟩

theorem ensureTerminal_spec (w : Wal) (phase : PhaseLabel) (now : Int) :
    StateWrite w (w.ensureTerminal phase now) := by
  unfold ensureTerminal
  split
  · exact ⟨rfl, rfl, rfl⟩
  · exact upsertInvocationState_spec _ _

theorem markDeferred_spec (w : Wal) : StateWrite w w.markDeferred := by
  unfold markDeferred
  split
  · exact ⟨rfl, rfl, rfl⟩
  · split
    · exact ⟨rfl, rfl, rfl⟩
    · exact upsertInvocationState_spec _ _

theorem modifyTool_spec (w : Wal) (id : ToolCallId) (f : ToolRow → ToolRow) :
    ToolWrite w { w with tools := w.tools.modify id f } id :=
  ⟨Table.erase_modify _ _ _, rfl, rfl, rfl⟩

theorem modifyLlm_spec (w : Wal) (id : Nat) (f : LlmRow → LlmRow) :
    LlmWrite w { w with llms := w.llms.modify id f } id :=
  ⟨rfl, Table.erase_modify _ _ _, rfl, rfl⟩

theorem writeToolIntent_spec (w : Wal) (id : ToolCallId) (name : String) (ps : Value) :
    ToolWrite w (w.writeToolIntent id name ps) id ∧
      (w.writeToolIntent id name ps).tools.get? id =
        some ⟨name, ps, .intent, none, none, none, none, none⟩ := by
  refine ⟨⟨Table.erase_replace _ _ _, rfl, rfl, rfl⟩, ?_⟩
  rw [writeToolIntent, Table.get?_replace, if_pos rfl]

variable {id : ToolCallId}

theorem toolHas_iff {status : DispatchStatus} :
    w.toolHas id status = true ↔ ∃ row, w.tools.get? id = some row ∧ row.status = status := by
  simp only [toolHas, Option.any_eq_true, decide_eq_true_eq]

variable {now : Int}

theorem writeToolDispatched_spec (h : w.writeToolDispatched id now = some w') :
    ToolWrite w w' id ∧ ∃ row, w.tools.get? id = some row ∧ row.status = .intent ∧
      w'.tools.get? id = some { row with status := .dispatched, dispatchedAt := some now } := by
  unfold writeToolDispatched at h
  split at h
  · next hs =>
    cases h
    obtain ⟨row, hr, hi⟩ := toolHas_iff.mp hs
    refine ⟨modifyTool_spec _ _ _, row, hr, hi, ?_⟩
    rw [Table.get?_modify, if_pos rfl, hr]
    rfl
  · cases h

theorem writeToolCompleted_spec {result : String} {isError : Bool}
    (h : w.writeToolCompleted id result isError now = some w') :
    ToolWrite w w' id ∧ ∃ row, w.tools.get? id = some row ∧ row.status = .dispatched ∧
      w'.tools.get? id = some { row with
        status := .completed, result := some result, isError := some isError,
        completedAt := some now, seq := some w.nextSeq } := by
  unfold writeToolCompleted at h
  split at h
  · next hs =>
    cases h
    obtain ⟨row, hr, hi⟩ := toolHas_iff.mp hs
    refine ⟨modifyTool_spec _ _ _, row, hr, hi, ?_⟩
    rw [Table.get?_modify, if_pos rfl, hr]
    rfl
  · cases h

theorem interrupt_spec (render : Int → String) {row : ToolRow} (h : w.tools.get? id = some row) :
    ToolWrite w (w.interrupt render id) id ∧ ∃ row', (w.interrupt render id).tools.get? id = some row' ∧
      row'.status = .completed ∧ row'.seq = some w.nextSeq := by
  have hrow := Table.get?_modify w.tools id (fun r => { r with
    status := .completed, result := some (interruptedResultPayload (render (r.dispatchedAt.getD 0))),
    isError := some true, completedAt := r.dispatchedAt, seq := some w.nextSeq }) id
  rw [if_pos rfl, h] at hrow
  exact ⟨modifyTool_spec _ _ _, _, hrow, rfl, rfl⟩

/-- The operator's closing of interrupted calls writes tool rows only. -/
theorem injectInterruptedResults_spec (w : Wal) (render : Int → String) :
    (w.injectInterruptedResults render).llms = w.llms ∧ (w.injectInterruptedResults render).state = w.state := by
  have hfold : ∀ (calls : List (ToolCallId × ToolRow)) (v : Wal),
      (calls.foldl (fun w r => w.interrupt render r.1) v).llms = v.llms ∧
        (calls.foldl (fun w r => w.interrupt render r.1) v).state = v.state := by
    intro calls
    induction calls with
    | nil => exact fun v => ⟨rfl, rfl⟩
    | cons r rest ih => exact fun v => ih _
  exact hfold _ w

theorem insertHostNotice_spec {n : NoticeRow} (h : w.insertHostNotice n = some w') :
    w' = { w with notices := w.notices ++ [n] } := by
  unfold insertHostNotice at h
  split at h
  · cases h
  · cases h
    rfl

theorem writeLlmIntent_spec (w : Wal) (id : Nat) (origin : LlmCallOrigin) :
    LlmWrite w (w.writeLlmIntent id origin) id ∧
      (w.writeLlmIntent id origin).llms.get? id =
        some ⟨origin, .intent, none, none, none, none, none, none⟩ := by
  refine ⟨⟨rfl, Table.erase_replace _ _ _, rfl, rfl⟩, ?_⟩
  rw [writeLlmIntent, Table.get?_replace, if_pos rfl]

theorem llmHas_iff {id : Nat} {status : DispatchStatus} :
    w.llmHas id status = true ↔ ∃ row, w.llms.get? id = some row ∧ row.status = status := by
  simp only [llmHas, Option.any_eq_true, decide_eq_true_eq]

theorem writeLlmDispatched_spec {id : Nat} (h : w.writeLlmDispatched id = some w') :
    LlmWrite w w' id ∧ ∃ row, w.llms.get? id = some row ∧ row.status = .intent ∧
      w'.llms.get? id = some { row with status := .dispatched } := by
  unfold writeLlmDispatched at h
  split at h
  · next hs =>
    cases h
    obtain ⟨row, hr, hi⟩ := llmHas_iff.mp hs
    refine ⟨modifyLlm_spec _ _ _, row, hr, hi, ?_⟩
    rw [Table.get?_modify, if_pos rfl, hr]
    rfl
  · cases h

theorem writeLlmCompleted_spec {id : Nat} {body : LlmBody} {isError : Bool} {cost : ℚ}
    (h : w.writeLlmCompleted id body isError cost now = some w') :
    LlmWrite w w' id ∧ ∃ row, w.llms.get? id = some row ∧ row.status = .dispatched ∧
      w'.llms.get? id = some { row with
        status := .completed, response := some body, isError := some isError,
        costUsd := some cost, completedAt := some now, seq := some w.nextSeq } := by
  unfold writeLlmCompleted at h
  split at h
  · next hs =>
    cases h
    obtain ⟨row, hr, hi⟩ := llmHas_iff.mp hs
    refine ⟨modifyLlm_spec _ _ _, row, hr, hi, ?_⟩
    rw [Table.get?_modify, if_pos rfl, hr]
    rfl
  · cases h

theorem markLlmDeferred_spec {id : Nat} (h : w.markLlmDeferred id now = some w') :
    LlmWrite w w' id ∧ ∃ row, w.llms.get? id = some row ∧ row.status = .completed ∧
      row.isError = some true ∧ w'.llms.get? id = some { row with deferredAt := some now } := by
  unfold markLlmDeferred at h
  split at h
  · next hs =>
    cases h
    obtain ⟨row, hr, hi⟩ := (Option.any_eq_true _ _).mp hs
    rw [Bool.and_eq_true, decide_eq_true_eq, decide_eq_true_eq] at hi
    refine ⟨modifyLlm_spec _ _ _, row, hr, hi.1, hi.2, ?_⟩
    rw [Table.get?_modify, if_pos rfl, hr]
    rfl
  · cases h

theorem get?_freshRequest (w : Wal) : w.llms.get? w.freshRequest = none := by
  refine Table.get?_eq_none.mpr fun hmem => ?_
  have hle := le_foldr_max hmem
  rw [freshRequest] at hle
  omega

end Wal

end FactorQ.Reducer
