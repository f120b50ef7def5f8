/-
# `FactorQ.Reducer.Executions` — each call is executed once and gets its own result

Before it runs a tool the host looks for a closed row under the call's id, and
takes the recorded result if there is one.  In a run that nobody interrupts, such
a row belongs to an earlier call that carried the same id.  So the property
depends on the ids: with all of them distinct, every call of a turn that is
dispatched is answered before the loop goes on, and if it passes the checks it is
executed once, with its own parameters, and answered by that execution; with
an id that comes back in a later turn, the later call is not executed at all and
is answered by the result of the earlier one.

A turn is not dispatched if it ends the invocation: beside a declared outcome, at
the cap on turns, past the budget, or cut off in its calls.  Its calls are not
executed.
-/
import FactorQ.Reducer.Follows
import FactorQ.Reducer.Requests

namespace FactorQ.Reducer

open Lib Wal

variable {cfg : HostConfig} {w w' : Wal} {answers : List Answer} {runs : List Execution} {k : Nat}
  {req : ToolCallRequest} {rest : List ToolCallRequest} {q : ToolPoint} {p : Point} {next : HarnessState}

/-- The call passes the permission check and the lookup. -/
def HostConfig.passes (cfg : HostConfig) (req : ToolCallRequest) : Bool := cfg.allows req && cfg.finds req

def callIds (calls : List ToolCallRequest) : List ToolCallId := calls.map ToolCallRequest.toolCallId

def answeredIds (answers : List Answer) : List ToolCallId := answers.map fun a => a.request.toolCallId

/-- The executions of the call an answer is for. -/
def Host.executionsOf (h : Host) (a : Answer) : List Execution :=
  h.executions.filter fun x => x.stepIndex = a.stepIndex && x.request.toolCallId = a.request.toolCallId

/-- What was fed back for the calls of one step. -/
def answersAt (answers : List Answer) (k : Nat) : List Answer := answers.filter fun a => a.stepIndex = k

/-- The executions under an id. -/
def under (runs : List Execution) (id : ToolCallId) : List Execution :=
  runs.filter fun x => x.request.toolCallId = id

/-- The one execution that answers `a`. -/
def Answer.execution (cfg : HostConfig) (a : Answer) : Execution :=
  ⟨a.stepIndex, cfg.prepare a.request, a.result⟩

/-- The last result of a point is what was fed back for the calls of the turn
before it: all of them, in order. -/
def FedBack (answers : List Answer) (p : Point) : Prop :=
  ∀ s, p.state = some s → s.phase = .dispatchingTools →
    ∃ parts, s.messages.getLast? = some (.assistant parts) ∧
      (answersAt answers (p.stepIndex - 1)).map Answer.request = assistantToolCalls parts ∧
      p.lastResult = some (batchResult ((answersAt answers (p.stepIndex - 1)).map Answer.result))

/-! ## The state between two calls -/

def Once (cfg : HostConfig) (answers : List Answer) (runs : List Execution) : Prop :=
  ∀ a ∈ answers, cfg.passes a.request = true → under runs a.request.toolCallId = [a.execution cfg]

/-- Rows and executions belong to answered calls, or to the call in progress; the
ids in `pending` are those of the calls to come. -/
structure Orderly (cfg : HostConfig) (w : Wal) (answers : List Answer) (runs : List Execution)
    (pending : List ToolCallId) (current : Option ToolCallId) (k : Nat) : Prop where
  once : Once cfg answers runs
  known : (answeredIds answers ++ pending).Subperm w.requestedIds
  rows : w.tools.All fun id _ => id ∈ answeredIds answers ∨ some id = current
  runs : ∀ x ∈ runs, x.request.toolCallId ∈ answeredIds answers ∨ some x.request.toolCallId = current
  past : ∀ a ∈ answers, a.stepIndex < k

namespace Orderly

variable {pending pending' : List ToolCallId} {current : Option ToolCallId}

theorem frame (h : Orderly cfg w answers runs pending current k) (ht : w'.tools = w.tools)
    (hr : w.requestedIds.Subperm w'.requestedIds) : Orderly cfg w' answers runs pending current k where
  once := h.once
  known := h.known.trans hr
  rows := ht ▸ h.rows
  runs := h.runs
  past := h.past

theorem forget (h : Orderly cfg w answers runs pending current k) :
    Orderly cfg w answers runs [] current (k + 1) where
  once := h.once
  known := by
    rw [List.append_nil]
    exact (List.sublist_append_left _ _).subperm.trans h.known
  rows := h.rows
  runs := h.runs
  past := fun a ha => Nat.lt_succ_of_lt (h.past a ha)

/-- The rows and executions of the call in progress are free to change. -/
theorem write (h : Orderly cfg w answers runs pending (some req.toolCallId) k)
    (hw : ToolWrite w w' req.toolCallId) : Orderly cfg w' answers runs pending (some req.toolCallId) k where
  once := h.once
  known := by
    rw [Wal.requestedIds, hw.llms]
    exact h.known
  rows := h.rows.write hw.tools fun _ _ => .inr rfl
  runs := h.runs
  past := h.past

/-- With the ids distinct, a call to come has no row and no execution. -/
theorem fresh {id : ToolCallId} (h : Orderly cfg w answers runs (id :: pending) none k)
    (hnd : w.requestedIds.Nodup) : id ∉ answeredIds answers ∧ w.tools.get? id = none ∧ under runs id = [] := by
  obtain ⟨l, hperm, hsub⟩ := h.known
  have hids := hperm.nodup_iff.mp (hnd.sublist hsub)
  have hno : id ∉ answeredIds answers := by
    intro hmem
    exact (List.nodup_append.mp hids).2.2 id hmem id List.mem_cons_self rfl
  refine ⟨hno, ?_, ?_⟩
  · cases hg : w.tools.get? id with
    | none => rfl
    | some row =>
      rcases h.rows id row hg with hin | hcur
      · exact absurd hin hno
      · cases hcur
  · refine List.filter_eq_nil_iff.mpr fun x hx hid => ?_
    have heq : x.request.toolCallId = id := by simpa using hid
    rcases h.runs x hx with hin | hcur
    · exact hno (heq ▸ hin)
    · cases hcur

theorem begin (h : Orderly cfg w answers runs (callIds (req :: rest)) none k) :
    Orderly cfg w answers runs (callIds (req :: rest)) (some req.toolCallId) k where
  once := h.once
  known := h.known
  rows := by
    intro id row hg
    exact .inl ((h.rows id row hg).resolve_right (by simp))
  runs := fun x hx => .inl ((h.runs x hx).resolve_right (by simp))
  past := h.past

theorem run (h : Orderly cfg w answers runs (callIds (req :: rest)) (some req.toolCallId) k)
    (hnew : req.toolCallId ∉ answeredIds answers) (j : Nat) (r : ToolCallResult) :
    Orderly cfg w answers (runs ++ [⟨j, cfg.prepare req, r⟩]) (callIds (req :: rest)) (some req.toolCallId) k where
  once := by
    intro a ha hp
    have hne : req.toolCallId ≠ a.request.toolCallId := by
      intro he
      exact hnew (he ▸ List.mem_map_of_mem (f := fun a : Answer => a.request.toolCallId) ha)
    rw [under, List.filter_append, List.filter_cons_of_neg (by simp [HostConfig.prepare, hne]),
      List.filter_nil, List.append_nil]
    exact h.once a ha hp
  known := h.known
  rows := h.rows
  runs := by
    intro x hx
    rcases List.mem_append.mp hx with hold | hrun
    · exact h.runs x hold
    · rw [List.mem_singleton.mp hrun]
      exact .inr rfl
  past := h.past

theorem answer (h : Orderly cfg w answers runs (callIds (req :: rest)) (some req.toolCallId) (k + 1))
    {r : ToolCallResult}
    (honce : cfg.passes req = true → under runs req.toolCallId = [⟨k, cfg.prepare req, r⟩]) :
    Orderly cfg w (answers ++ [⟨k, req, r⟩]) runs (callIds rest) none (k + 1) where
  once := by
    intro a ha hp
    rcases List.mem_append.mp ha with hold | hnew
    · exact h.once a hold hp
    · rw [List.mem_singleton.mp hnew] at hp ⊢
      exact honce hp
  known := by
    rw [answeredIds, List.map_append, List.append_assoc]
    exact h.known
  rows := by
    intro id row hg
    refine .inl ?_
    rw [answeredIds, List.map_append]
    rcases h.rows id row hg with hin | hcur
    · exact List.mem_append_left _ hin
    · cases hcur
      exact List.mem_append_right _ (List.mem_singleton_self _)
  runs := by
    intro x hx
    refine .inl ?_
    rw [answeredIds, List.map_append]
    rcases h.runs x hx with hin | hcur
    · exact List.mem_append_left _ hin
    · rw [Option.some.inj hcur]
      exact List.mem_append_right _ (List.mem_singleton_self _)
  past := by
    intro a ha
    rcases List.mem_append.mp ha with hold | hnew
    · exact h.past a hold
    · rw [List.mem_singleton.mp hnew]
      exact Nat.lt_succ_self k

end Orderly

/-! ## A call in progress -/

/-- What has been executed for the call, at each of its points. -/
def ToolPoint.Runs (cfg : HostConfig) (req : ToolCallRequest) (w : Wal) (k : Nat) (ran : List Execution) :
    ToolPoint → Prop
  | .start => w.tools.get? req.toolCallId = none ∧ ran = []
  | .intent | .invoke | .running | .serving _ _ => ran = []
  | .missing | .rewrite | .synthetic _ _ _ => cfg.passes req = false
  | .returned r => ran = [⟨k, cfg.prepare req, r⟩]
  | .judging r => cfg.passes req = true → ran = [⟨k, cfg.prepare req, r⟩]

/-- The calls of the turn before `req` are answered by `done`. -/
structure Calling (cfg : HostConfig) (w : Wal) (answers : List Answer) (runs : List Execution) (p : Point)
    (next : HarnessState) (done : List ToolCallResult) (req : ToolCallRequest) (rest : List ToolCallRequest)
    (q : ToolPoint) : Prop where
  orderly : Orderly cfg w answers runs (callIds (req :: rest)) (some req.toolCallId) (p.stepIndex + 1)
  unanswered : req.toolCallId ∉ answeredIds answers
  turn : ∃ r : ModelResponse, next.messages.getLast? = some (.assistant r.parts) ∧
    r.toolCalls = (answersAt answers p.stepIndex).map Answer.request ++ req :: rest
  fed : (answersAt answers p.stepIndex).map Answer.result = done
  runs : q.Runs cfg req w p.stepIndex (under runs req.toolCallId)

theorem under_run (runs : List Execution) (j : Nat) (r : ToolCallResult) :
    under (runs ++ [⟨j, cfg.prepare req, r⟩]) req.toolCallId =
      under runs req.toolCallId ++ [⟨j, cfg.prepare req, r⟩] := by
  rw [under, List.filter_append, List.filter_cons_of_pos (by simp [HostConfig.prepare]), List.filter_nil]
  rfl

theorem Calling.move {done : List ToolCallResult} {spent spent' : ℚ} {executed : Option ToolCallResult}
    {move : ToolMove} (h : Calling cfg w answers runs p next done req rest q)
    (m : ToolStep cfg req w spent q w' spent' executed move) :
    match move with
    | .goes q' => Calling cfg w' answers
        (runs ++ executed.toList.map (Execution.mk p.stepIndex (cfg.prepare req))) p next done req rest q'
    | .answer r => w' = w ∧ executed = none ∧
        (cfg.passes req = true → under runs req.toolCallId = [⟨p.stepIndex, cfg.prepare req, r⟩])
    | .abort _ => executed = none := by
  have hruns := h.runs
  cases m with
  | recorded row hg hc =>
    -- no row carries the id of a call to come
    rw [hruns.1] at hg
    cases hg
  | admitted hopen =>
    rw [Option.toList_none, List.map_nil, List.append_nil]
    refine ⟨h.orderly, h.unanswered, h.turn, h.fed, ?_⟩
    unfold ToolPoint.step.afterPermission
    split
    · exact hruns.2
    · next hdeny => simp [ToolPoint.Runs, HostConfig.passes, hdeny]
  | opened hopens hw ha =>
    rw [Option.toList_none, List.map_nil, List.append_nil]
    refine ⟨h.orderly.write hw, h.unanswered, h.turn, h.fed, ?_⟩
    cases hopens with
    | intent => exact hruns
    | synthetic kind message => exact hruns
  | reopened hw ha =>
    rw [Option.toList_none, List.map_nil, List.append_nil]
    exact ⟨h.orderly.write hw, h.unanswered, h.turn, h.fed, hruns⟩
  | dispatched now hdisp hw hb hs ha =>
    cases hdisp with
    | inspect own r hid =>
      refine ⟨(h.orderly.write hw).run h.unanswered _ _, h.unanswered, h.turn, h.fed, ?_⟩
      have hnone : under runs req.toolCallId = [] := hruns
      show under (runs ++ [⟨p.stepIndex, cfg.prepare req, r⟩]) req.toolCallId = _
      rw [under_run, hnone]
      rfl
    | run other found =>
      rw [Option.toList_none, List.map_nil, List.append_nil]
      exact ⟨h.orderly.write hw, h.unanswered, h.turn, h.fed, hruns⟩
    | missing other unknown =>
      rw [Option.toList_none, List.map_nil, List.append_nil]
      refine ⟨h.orderly.write hw, h.unanswered, h.turn, h.fed, ?_⟩
      simp [ToolPoint.Runs, HostConfig.passes, HostConfig.finds, other, unknown]
    | synthetic kind message =>
      rw [Option.toList_none, List.map_nil, List.append_nil]
      exact ⟨h.orderly.write hw, h.unanswered, h.turn, h.fed, hruns⟩
  | closed now hcloses hw hb hs ha =>
    rw [Option.toList_none, List.map_nil, List.append_nil]
    refine ⟨h.orderly.write hw, h.unanswered, h.turn, h.fed, ?_⟩
    cases hcloses with
    | missing => exact hruns
    | synthetic kind message =>
      intro hp
      rw [show cfg.passes req = false from hruns] at hp
      cases hp
    | returned r => exact fun _ => hruns
  | ran r hid =>
    refine ⟨h.orderly.run h.unanswered _ _, h.unanswered, h.turn, h.fed, ?_⟩
    have hnone : under runs req.toolCallId = [] := hruns
    show under (runs ++ [⟨p.stepIndex, cfg.prepare req, r⟩]) req.toolCallId = _
    rw [under_run, hnone]
    rfl
  | serves origin =>
    rw [Option.toList_none, List.map_nil, List.append_nil]
    exact ⟨h.orderly, h.unanswered, h.turn, h.fed, hruns⟩
  | serving m =>
    rw [Option.toList_none, List.map_nil, List.append_nil]
    exact ⟨h.orderly.frame m.tools m.requestedIds, h.unanswered, h.turn, h.fed, hruns⟩
  | served m =>
    rw [Option.toList_none, List.map_nil, List.append_nil]
    exact ⟨h.orderly.frame m.tools m.requestedIds, h.unanswered, h.turn, h.fed, hruns⟩
  | judged r => exact ⟨rfl, rfl, hruns⟩
  | streak r => exact rfl

/-! ## The loop -/

def turnIds : Option CapabilityResult → List ToolCallId
  | some (.modelResult r) => callIds r.toolCalls
  | _ => []

theorem turnIds_batchResult (results : List ToolCallResult) : turnIds (some (batchResult results)) = [] := by
  rcases results with _ | ⟨a, _ | ⟨b, rest⟩⟩ <;> rfl

/-- Where the loop stands, and what it has executed. -/
def Executes (cfg : HostConfig) (h : Host) : Prop :=
  match h.pc with
  | .boundary p _ | .noticing p _ _ =>
    Orderly cfg h.wal h.answers h.executions (turnIds p.lastResult) none p.stepIndex ∧ FedBack h.answers p
  | .model p next q =>
    Orderly cfg h.wal h.answers h.executions [] none (p.stepIndex + 1) ∧ next.phase = .awaitingModel ∧
      q.Owns h.wal .agentTurn
  | .answered p next r =>
    Orderly cfg h.wal h.answers h.executions (callIds r.toolCalls) none (p.stepIndex + 1) ∧
      next.phase = .awaitingModel
  | .tools p next done req rest q => Calling cfg h.wal h.answers h.executions p next done req rest q
  | _ => Once cfg h.answers h.executions

theorem Executes.once {h : Host} (hx : Executes cfg h) : Once cfg h.answers h.executions := by
  unfold Executes at hx
  split at hx
  · exact hx.1.once
  · exact hx.1.once
  · exact hx.1.once
  · exact hx.1.once
  · exact hx.orderly.once
  · exact hx

theorem answersAt_append (answers : List Answer) (k : Nat) (req : ToolCallRequest) (r : ToolCallResult) :
    answersAt (answers ++ [⟨k, req, r⟩]) k = answersAt answers k ++ [⟨k, req, r⟩] := by
  rw [answersAt, List.filter_append, List.filter_cons_of_pos (by simp), List.filter_nil]
  rfl

theorem answersAt_eq_nil (h : ∀ a ∈ answers, a.stepIndex < k) : answersAt answers k = [] := by
  refine List.filter_eq_nil_iff.mpr fun a ha hk => ?_
  have hlt := h a ha
  have heq : a.stepIndex = k := by simpa using hk
  omega

theorem answersAt_append_of_ne {j : Nat} (h : j ≠ k) (answers : List Answer) (req : ToolCallRequest)
    (r : ToolCallResult) :
    answersAt (answers ++ [⟨j, req, r⟩]) k = answersAt answers k := by
  rw [answersAt, List.filter_append, List.filter_cons_of_neg (by simpa using h), List.filter_nil, List.append_nil]
  rfl

namespace Host

variable {h h' : Host} {e : Env}

theorem calling_start {done : List ToolCallResult}
    (ho : Orderly cfg w answers runs (callIds (req :: rest)) none (p.stepIndex + 1)) (hnd : w.requestedIds.Nodup)
    (hturn : ∃ r : ModelResponse, next.messages.getLast? = some (.assistant r.parts) ∧
      r.toolCalls = (answersAt answers p.stepIndex).map Answer.request ++ req :: rest)
    (hfed : (answersAt answers p.stepIndex).map Answer.result = done) :
    Calling cfg w answers runs p next done req rest .start := by
  obtain ⟨hno, hrow, hrun⟩ := ho.fresh hnd
  exact ⟨ho.begin, hno, hturn, hfed, hrow, hrun⟩

theorem executes_reduced {out : StepOutput} {pc' : Pc} (hnd : h.wal.requestedIds.Nodup)
    (ho : Orderly cfg h.wal h.answers h.executions (turnIds p.lastResult) none p.stepIndex)
    (hperf : Performs cfg h.spent p out pc') :
    Executes cfg ((h.store (h.wal.upsertInvocationState (rowOf p out e.now))).goto pc') := by
  have hw := upsertInvocationState_spec h.wal (rowOf p out e.now)
  have ho' := ho.frame hw.tools (requestedIds_of_llms hw.llms)
  cases hperf with
  | failed | completed | exhausted => exact ho.once
  | model q action phase noCalls below => exact ⟨ho'.forget, phase, trivial⟩
  | tools r req rest taken calls action phase asked =>
    rw [taken] at ho'
    have hat := answersAt_eq_nil ho.past
    have hone : Orderly cfg (h.wal.upsertInvocationState (rowOf p out e.now)) h.answers h.executions
        (callIds (req :: rest)) none (p.stepIndex + 1) := by
      refine { ho' with known := ?_, past := fun a ha => Nat.lt_succ_of_lt (ho.past a ha) }
      rw [← calls]
      exact ho'.known
    show Calling cfg (h.wal.upsertInvocationState (rowOf p out e.now)) h.answers h.executions p out.state [] req rest
      .start
    refine calling_start hone ?_ ⟨r, asked, ?_⟩ ?_
    · rw [Wal.requestedIds, hw.llms]
      exact hnd
    · rw [hat]
      exact calls
    · rw [hat]
      rfl

theorem executes_replied {q : LlmPoint} {w' : Wal} {spent' : ℚ} {r : ModelResponse}
    (ho : Orderly cfg h.wal h.answers h.executions [] none (p.stepIndex + 1)) (hown : q.Owns h.wal .agentTurn)
    (m : LlmMove .agentTurn h.wal h.spent q w' spent' (.inr (.ok r))) :
    Orderly cfg w' h.answers h.executions (callIds r.toolCalls) none (p.stepIndex + 1) := by
  refine { ho.frame m.tools m.requestedIds with known := ?_ }
  cases m with
  | @closed _ row id r cost now hw hb hs ha =>
    have hold : ∀ row, h.wal.llms.get? id = some row → row.turn? = none := by
      intro row' hg
      rw [hb] at hg
      cases hg
      refine turn?_of_status ?_
      rw [hs]
      exact DispatchStatus.noConfusion
    have hturn : w'.requestedIds.Perm (callIds r.toolCalls ++ h.wal.requestedIds) :=
      requestedIds_turn hw hold ha (by simp [LlmRow.turn?, LlmRow.isTurn, hown row hb])
    have hknown := ho.known
    rw [List.append_nil] at hknown
    refine List.Subperm.trans ?_ hturn.symm.subperm
    exact List.perm_append_comm.subperm.trans ((List.Subperm.refl (callIds r.toolCalls)).append hknown)

theorem executes_move (m : Move cfg e h h') (hnd : h.wal.requestedIds.Nodup) (hx : Executes cfg h) :
    Executes cfg h' := by
  have honce := hx.once
  unfold Executes at hx
  cases m with
  | overrun | suspended | rejected | overspent | stamped | unstamped | putDown | announced | lost | failed | ended
  | completed | archived | kept | handedOff =>
    exact honce
  | refused | rateLimited | broken => exact honce
  | drained p carried pc =>
    rw [pc] at hx
    exact hx
  | noticed p carried n pending pc _ _ insert =>
    rw [pc] at hx
    obtain ⟨ho, hfed⟩ := hx
    rw [insertHostNotice_spec insert]
    exact ⟨ho.frame rfl (List.Subperm.refl _), hfed⟩
  | reduced p carried out pc step performs =>
    rw [pc] at hx
    exact executes_reduced hnd hx.1 performs
  | called p next pc m =>
    rw [pc] at hx
    obtain ⟨ho, hphase, hown⟩ := hx
    exact ⟨ho.frame m.tools m.requestedIds, hphase, m.owns hown⟩
  | replied p next r pc m =>
    rw [pc] at hx
    obtain ⟨ho, hphase, hown⟩ := hx
    have ho' := executes_replied ho hown m
    exact ⟨ho', hphase⟩
  | advanced p next r pc _ =>
    rw [pc] at hx
    obtain ⟨ho, hphase⟩ := hx
    refine ⟨ho, ?_⟩
    rintro s ⟨⟩ hdisp
    rw [hphase] at hdisp
    cases hdisp
  | toolWent p next done req rest pc m =>
    rw [pc] at hx
    exact Calling.move hx m
  | toolAborted p next done req rest r pc m =>
    rw [pc] at hx
    have hnone := Calling.move hx m
    rw [show _ = none from hnone]
    show Once cfg h.answers (h.executions ++ [])
    rw [List.append_nil]
    exact honce
  | toolAnswered p next done req req' rest r pc m =>
    rw [pc] at hx
    obtain ⟨rfl, rfl, hone⟩ := Calling.move hx m
    have hat := answersAt_append h.answers p.stepIndex req r
    obtain ⟨resp, hasked, hcalls⟩ := hx.turn
    show Calling cfg _ _ (h.executions ++ []) _ _ _ _ _ _
    rw [List.append_nil]
    refine calling_start (hx.orderly.answer hone) hnd ⟨resp, hasked, ?_⟩ ?_
    · rw [hat, List.map_append, hcalls, List.append_assoc]
      rfl
    · rw [hat, List.map_append, hx.fed]
      rfl
  | roundDone p next done req r pc m =>
    rw [pc] at hx
    obtain ⟨rfl, rfl, hone⟩ := Calling.move hx m
    have hat := answersAt_append h.answers p.stepIndex req r
    obtain ⟨resp, hasked, hcalls⟩ := hx.turn
    have ho := hx.orderly.answer hone
    refine ⟨?_, ?_⟩
    · show Orderly cfg _ _ (h.executions ++ []) (turnIds (some (batchResult (done ++ [r])))) _ _
      rw [List.append_nil, turnIds_batchResult]
      exact ho
    · rintro s ⟨⟩ -
      refine ⟨resp.parts, hasked, ?_, ?_⟩
      · show (answersAt (h.answers ++ [_]) p.stepIndex).map Answer.request = resp.toolCalls
        rw [hat, List.map_append, hcalls]
        rfl
      · show some (batchResult (done ++ [r])) =
          some (batchResult ((answersAt (h.answers ++ [_]) p.stepIndex).map Answer.result))
        rw [hat, List.map_append, hx.fed]
        rfl
  | idle => exact hx

theorem executes_init : Executes cfg Host.init := by
  refine ⟨⟨?_, List.nil_subperm, Table.All.empty, ?_, ?_⟩, ?_⟩
  · intro a ha
    cases ha
  · intro x hx
    cases hx
  · intro a ha
    cases ha
  · rintro s ⟨⟩

/-- The run lemma, for a run of moves only. -/
theorem executes_run (envs : List Env) (hx : Executes cfg h)
    (hnd : (h.run cfg (envs.map .step)).wal.requestedIds.Nodup) : Executes cfg (h.run cfg (envs.map .step)) := by
  induction envs generalizing h with
  | nil => exact hx
  | cons e envs ih =>
    refine ih (executes_move step_move ?_ hx) hnd
    exact nodup_requestedIds_of_run (e :: envs |>.map .step) hnd

end Host

/-! ## A round -/

/-- The step that dispatches a turn, and the calls of the turn. -/
def Pc.dispatched? : Pc → Option (Nat × List ToolCallRequest)
  | .tools p _ [] req rest .start => some (p.stepIndex, req :: rest)
  | _ => none

/-- The step the loop is about to begin. -/
def Pc.upcoming? : Pc → Option Nat
  | .boundary p _ => some p.stepIndex
  | _ => none

/-- From the step `k` on, which dispatched these calls: they are answered, up to those to come. -/
def Answering (k : Nat) (calls : List ToolCallRequest) (answers : List Answer) : Pc → Prop
  | .boundary p _ | .noticing p _ _ | .model p _ _ | .answered p _ _ =>
    k < p.stepIndex ∧ (answersAt answers k).map Answer.request = calls
  | .tools p _ _ req rest _ =>
    if p.stepIndex = k then (answersAt answers k).map Answer.request ++ req :: rest = calls
    else k < p.stepIndex ∧ (answersAt answers k).map Answer.request = calls
  | _ => True

namespace Host

variable {h h' : Host} {e : Env} {calls : List ToolCallRequest}

theorem answering_move (m : Move cfg e h h') (hx : Answering k calls h.answers h.pc) :
    Answering k calls h'.answers h'.pc := by
  cases m with
  | overrun | suspended | rejected | overspent | stamped | unstamped | putDown | announced | lost | failed | ended
  | completed | archived | kept | handedOff | refused | rateLimited | broken | toolAborted => trivial
  | drained p carried pc =>
    rw [pc] at hx
    exact hx
  | noticed p carried n pending pc =>
    rw [pc] at hx
    exact hx
  | reduced p carried out pc _ performs =>
    rw [pc] at hx
    cases performs with
    | completed | failed | exhausted => trivial
    | model => exact hx
    | tools r req rest =>
      -- a later round: its step is not `k`
      have hlater : p.stepIndex ≠ k := Nat.ne_of_gt hx.1
      exact (if_neg hlater).mpr hx
  | called p next pc =>
    rw [pc] at hx
    exact hx
  | replied p next r pc =>
    rw [pc] at hx
    exact hx
  | advanced p next r pc =>
    rw [pc] at hx
    exact ⟨Nat.lt_succ_of_lt hx.1, hx.2⟩
  | toolWent p next done req rest pc =>
    rw [pc] at hx
    exact hx
  | toolAnswered p next done req req' rest r pc =>
    rw [pc] at hx
    dsimp only [Answering] at hx ⊢
    by_cases hk : p.stepIndex = k
    · subst hk
      rw [if_pos rfl] at hx ⊢
      rw [answersAt_append, List.map_append, List.append_assoc]
      exact hx
    · rw [if_neg hk] at hx ⊢
      rw [answersAt_append_of_ne hk]
      exact hx
  | roundDone p next done req r pc =>
    rw [pc] at hx
    dsimp only [Answering] at hx ⊢
    by_cases hk : p.stepIndex = k
    · subst hk
      rw [if_pos rfl] at hx
      rw [answersAt_append, List.map_append]
      exact ⟨Nat.lt_succ_self _, hx⟩
    · rw [if_neg hk] at hx
      rw [answersAt_append_of_ne hk]
      exact ⟨Nat.lt_succ_of_lt hx.1, hx.2⟩
  | idle => exact hx

theorem answering_run (envs : List Env) (hx : Answering k calls h.answers h.pc) :
    Answering k calls (h.run cfg (envs.map .step)).answers (h.run cfg (envs.map .step)).pc := by
  induction envs generalizing h with
  | nil => exact hx
  | cons e envs ih => exact ih (answering_move step_move hx)

/-- A turn is dispatched before any of its calls is answered. -/
theorem answering_start (hx : Executes cfg h) (hpc : h.pc.dispatched? = some (k, calls)) :
    Answering k calls h.answers h.pc := by
  unfold Executes at hx
  unfold Pc.dispatched? at hpc
  split at hpc
  next p next req rest hat =>
    rw [hat] at hx ⊢
    obtain ⟨rfl, rfl⟩ := Prod.mk.inj (Option.some.inj hpc)
    have hnone : answersAt h.answers p.stepIndex = [] := List.map_eq_nil_iff.mp hx.fed
    dsimp only [Answering]
    rw [if_pos rfl, hnone]
    rfl
  next => cases hpc

/-- When the loop begins another step, the calls it dispatched before are answered, in order. -/
theorem dispatched_answered {before after : List Env} {j : Nat}
    (hnd : (init.run cfg ((before ++ after).map .step)).wal.requestedIds.Nodup)
    (hdispatched : (init.run cfg (before.map .step)).pc.dispatched? = some (k, calls))
    (hupcoming : (init.run cfg ((before ++ after).map .step)).pc.upcoming? = some j) :
    (answersAt (init.run cfg ((before ++ after).map .step)).answers k).map Answer.request = calls := by
  have hrun : init.run cfg ((before ++ after).map .step) =
      (init.run cfg (before.map .step)).run cfg (after.map .step) := by
    rw [List.map_append]
    exact List.foldl_append
  rw [hrun] at hnd hupcoming ⊢
  have hx : Executes cfg (init.run cfg (before.map .step)) :=
    executes_run before executes_init (nodup_requestedIds_of_run _ hnd)
  have hround : Answering k calls ((init.run cfg (before.map .step)).run cfg (after.map .step)).answers _ :=
    answering_run after (answering_start hx hdispatched)
  unfold Pc.upcoming? at hupcoming
  split at hupcoming
  next p carried hpc =>
    rw [hpc] at hround
    exact hround.2
  next => cases hupcoming

end Host

/-- Every call is executed once and answered by its own result.  In every run that
nobody interrupts, in which no id comes back: once the loop has gone on from a turn
it dispatched, each call of the turn that passes the checks was executed exactly
once, with its own parameters, and answered by what that execution returned; the
same holds of every call answered so far; and wherever the results of a tool round
are handed to the reducer, they are the answers to all calls of the turn, in the
order of the calls. -/
theorem each_call_executed_once (cfg : HostConfig) (envs : List Env)
    (hnd : (Host.init.run cfg (envs.map .step)).wal.requestedIds.Nodup) :
    (∀ before after k calls j, envs = before ++ after →
      (Host.init.run cfg (before.map .step)).pc.dispatched? = some (k, calls) →
      (Host.init.run cfg (envs.map .step)).pc.upcoming? = some j →
      ∀ call ∈ calls, cfg.passes call = true →
        ∃ a ∈ (Host.init.run cfg (envs.map .step)).answers, a.stepIndex = k ∧ a.request = call ∧
          (Host.init.run cfg (envs.map .step)).executionsOf a = [⟨k, cfg.prepare call, a.result⟩]) ∧
    (∀ a ∈ (Host.init.run cfg (envs.map .step)).answers, cfg.passes a.request = true →
      (Host.init.run cfg (envs.map .step)).executionsOf a = [⟨a.stepIndex, cfg.prepare a.request, a.result⟩]) ∧
    ∀ p carried, (Host.init.run cfg (envs.map .step)).pc = .boundary p carried →
      FedBack (Host.init.run cfg (envs.map .step)).answers p := by
  have hx : Executes cfg (Host.init.run cfg (envs.map .step)) := Host.executes_run envs Host.executes_init hnd
  have hanswered : ∀ a ∈ (Host.init.run cfg (envs.map .step)).answers, cfg.passes a.request = true →
      (Host.init.run cfg (envs.map .step)).executionsOf a = [⟨a.stepIndex, cfg.prepare a.request, a.result⟩] := by
    intro a ha hp
    have hone := hx.once a ha hp
    have hsplit : (Host.init.run cfg (envs.map .step)).executionsOf a =
        (under (Host.init.run cfg (envs.map .step)).executions a.request.toolCallId).filter
          fun x => x.stepIndex = a.stepIndex := by
      rw [under, List.filter_filter]
      rfl
    rw [hsplit, hone, List.filter_cons_of_pos (by simp [Answer.execution]), List.filter_nil]
    rfl
  refine ⟨?_, hanswered, ?_⟩
  · rintro before after k calls j rfl hdispatched hupcoming call hcall hp
    rw [← Host.dispatched_answered hnd hdispatched hupcoming] at hcall
    obtain ⟨a, ha, rfl⟩ := List.mem_map.mp hcall
    obtain ⟨hmem, hk⟩ := List.mem_filter.mp ha
    obtain rfl : a.stepIndex = k := by simpa using hk
    exact ⟨a, hmem, rfl, rfl, hanswered a hmem hp⟩
  · intro p carried hpc
    unfold Executes at hx
    rw [hpc] at hx
    exact hx.2

/-- Two calls in one turn, up to where they are dispatched, and up to where both are answered. -/
def twoCalls (n : Nat) : Host := Host.init.run sampleConfig ((List.replicate n (sampleEnv ["a", "b"])).map .step)

theorem twoCalls_executed_once :
    ∃ k calls, (twoCalls 9).pc.dispatched? = some (k, calls) ∧ callIds calls = ["a", "b"] ∧
      ∀ call ∈ calls, sampleConfig.passes call = true →
        ∃ a ∈ (twoCalls 21).answers, a.stepIndex = k ∧ a.request = call ∧
          (twoCalls 21).executionsOf a = [⟨k, sampleConfig.prepare call, a.result⟩] := by
  have hids : (twoCalls 9).pc.dispatched?.map (fun d => callIds d.2) = some ["a", "b"] := by decide +kernel
  have hnext : (twoCalls 21).pc.upcoming? = some 2 := by decide +kernel
  obtain ⟨⟨k, calls⟩, hdispatched, hcalls⟩ := Option.map_eq_some_iff.mp hids
  exact ⟨k, calls, hdispatched, hcalls,
    (each_call_executed_once sampleConfig (.replicate 21 (sampleEnv ["a", "b"])) (by decide +kernel)).1
      (.replicate 9 _) (.replicate 12 _) k calls 2 rfl hdispatched hnext⟩

/-- Two turns that call under the same id, both answered. -/
def sameId : Host := Host.init.run sampleConfig ((List.replicate 25 (sampleEnv ["a"])).map .step)

/-- An id that comes back: the ids are distinct within each response, the second
call passes the checks and is answered, and it was never executed. -/
theorem repeated_id_not_executed :
    (∀ r ∈ sameId.wal.llms.rows.filterMap turnOf, (callIds r.toolCalls).Nodup) ∧
      ∃ a ∈ sameId.answers, sampleConfig.passes a.request = true ∧ sameId.executionsOf a = [] := by
  refine ⟨by decide +kernel, ?_⟩
  have hany : (sameId.answers.any fun a =>
      sampleConfig.passes a.request && (sameId.executionsOf a).isEmpty) = true := by decide +kernel
  obtain ⟨a, ha, hp⟩ := List.any_eq_true.mp hany
  rw [Bool.and_eq_true] at hp
  exact ⟨a, ha, hp.1, List.isEmpty_iff.mp hp.2⟩

end FactorQ.Reducer
