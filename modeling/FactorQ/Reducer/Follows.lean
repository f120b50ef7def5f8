/-
# `FactorQ.Reducer.Follows` — the rows follow the run

`Follows cfg w rounds p`: the rows of `w` are the history `rounds`, and replaying
it reaches the point `p`, up to what a row does not keep of a result.  Inside a
tool round the same is said of the turn that opened the round, in `InRound`; a
round whose calls are all answered follows its own end, any other follows its
turn, because its results are cut.

Each lemma here is about one kind of write.  None of them mentions the loop.
-/
import FactorQ.Reducer.Log
import FactorQ.Reducer.Moves

namespace FactorQ.Reducer

open Lib Wal

variable {cfg : HostConfig} {w w' : Wal} {rounds rs : List Round} {x : Round} {p : Point} {next : HarnessState}

/-! ## Notices -/

theorem noticesAt_congr (h : w'.notices = w.notices) (k : Nat) : w'.noticesAt k = w.noticesAt k := by
  rw [Wal.noticesAt, Wal.noticesAt, h]

theorem stepAt_congr (h : w'.notices = w.notices) (p : Point) : cfg.stepAt w' p = cfg.stepAt w p := by
  rw [HostConfig.stepAt, HostConfig.stepAt, noticesAt_congr h]

theorem replaySteps_of_notices (h : w'.notices = w.notices) (p : Point) (xs : List CapabilityResult) :
    replaySteps cfg w' p xs = replaySteps cfg w p xs :=
  replaySteps_congr fun k _ => noticesAt_congr h k

variable {n : NoticeRow}

theorem lt_noticeSeq {carried : List NoticeRow} (h : n ∈ carried) :
    n.seq < Host.noticeSeq carried :=
  le_foldr_max (List.mem_map_of_mem h)

/-- A notice that takes the next number of its step comes last there. -/
theorem noticesAt_insert (h : w.insertHostNotice n = some w')
    (hnum : Numbered NoticeRow.seq (w.noticesAt n.stepIndex))
    (hlast : ∀ m ∈ w.noticesAt n.stepIndex, m.seq < n.seq) :
    w'.noticesAt n.stepIndex = w.noticesAt n.stepIndex ++ [n] := by
  unfold Wal.insertHostNotice at h
  split at h
  · cases h
  · cases h
    refine (hnum.concat hlast).insertionSort_eq ?_
    rw [List.filter_append, List.filter_cons_of_pos (by simp), List.filter_nil]
    exact (List.perm_insertionSort _ _).symm.append_right _

theorem noticesAt_insert_of_ne (h : w.insertHostNotice n = some w') {k : Nat} (hk : k ≠ n.stepIndex) :
    w'.noticesAt k = w.noticesAt k := by
  unfold Wal.insertHostNotice at h
  split at h
  · cases h
  · cases h
    unfold Wal.noticesAt
    rw [List.filter_append, List.filter_cons_of_neg (by simpa using Ne.symm hk), List.filter_nil,
      List.append_nil]

theorem noticesAt_eq_nil {k : Nat} (h : ∀ n ∈ w.notices, n.stepIndex < k) : w.noticesAt k = [] := by
  have hfilter : w.notices.filter (fun n => n.stepIndex = k) = [] := by
    refine List.filter_eq_nil_iff.mpr fun n hn => ?_
    have hlt := h n hn
    simp only [decide_eq_true_eq]
    omega
  rw [Wal.noticesAt, hfilter]
  rfl

/-! ## Following a point -/

/-- No call is in the window a crash leaves unclear. -/
def Quiet (w : Wal) : Prop := w.tools.All fun _ row => row.status ≠ .dispatched

/-- The call is the first without a result, in the last round. -/
def NextCall (rounds : List Round) (id : ToolCallId) : Prop :=
  ∃ rs x, rounds = rs ++ [x] ∧ x.callIds[x.results.length]? = some id

structure Follows (cfg : HostConfig) (w : Wal) (rounds : List Round) (p : Point) : Prop where
  logged : Logged w rounds
  answers : ∀ r ∈ rounds, r.Answers
  reached : replaySteps cfg w .start (capsOf (cutLast rounds)) = .ok p.recorded
  noticed : ∀ n ∈ w.notices, n.stepIndex ≤ p.stepIndex
  numbered : ∀ k, Numbered NoticeRow.seq (w.noticesAt k)
  /-- a call in the window belongs to a round that is being performed -/
  waiting : w.tools.All fun id row => row.status = .dispatched →
    NextCall rounds id ∧ ∃ out, cfg.stepAt w p.recorded = .ok out

@[simp] theorem Point.recorded_recorded (p : Point) : p.recorded.recorded = p.recorded := by
  simp only [Point.recorded, Option.map_map]
  congr 1
  cases p.lastResult with
  | none => rfl
  | some c => exact congrArg some c.recorded_recorded

theorem stepAt_recorded {out : StepOutput} (h : cfg.stepAt w p = .ok out) :
    cfg.stepAt w p.recorded = .ok out :=
  step_recorded h

theorem Follows.start : Follows cfg Wal.empty [] Point.start where
  logged := Logged.empty
  answers := by simp
  reached := rfl
  noticed := by simp [Wal.empty]
  numbered := fun _ => List.Pairwise.nil
  waiting := Table.All.empty

section

variable (h : Follows cfg w rounds p)
include h

/-- The state row is not part of what is followed. -/
theorem Follows.frame (ht : w'.tools = w.tools) (hl : w'.llms = w.llms) (hn : w'.notices = w.notices) :
    Follows cfg w' rounds p where
  logged := h.logged.frame ht hl
  answers := h.answers
  reached := (replaySteps_of_notices hn _ _).trans h.reached
  noticed := hn ▸ h.noticed
  numbered := fun k => noticesAt_congr hn k ▸ h.numbered k
  waiting := by
    intro id row hg hs
    rw [stepAt_congr hn]
    exact h.waiting id row (ht ▸ hg) hs

theorem Follows.recorded : Follows cfg w rounds p.recorded where
  logged := h.logged
  answers := h.answers
  reached := by
    rw [Point.recorded_recorded]
    exact h.reached
  noticed := h.noticed
  numbered := h.numbered
  waiting := by
    rw [Point.recorded_recorded]
    exact h.waiting

theorem Follows.stepIndex : p.stepIndex = (capsOf (cutLast rounds)).length := by
  have hidx := replaySteps_stepIndex h.reached
  simpa [Point.recorded, Point.start] using hidx

theorem Follows.notice (hw : w.insertHostNotice n = some w') (hk : n.stepIndex = p.stepIndex)
    (hlast : ∀ m ∈ w.noticesAt n.stepIndex, m.seq < n.seq) (hquiet : Quiet w) :
    Follows cfg w' rounds p ∧ w'.noticesAt p.stepIndex = w.noticesAt p.stepIndex ++ [n] := by
  have hat := noticesAt_insert hw (h.numbered _) hlast
  have hne : ∀ k, k ≠ n.stepIndex → w'.noticesAt k = w.noticesAt k := fun k hk => noticesAt_insert_of_ne hw hk
  have hrows : w'.tools = w.tools ∧ w'.llms = w.llms ∧ w'.notices = w.notices ++ [n] := by
    unfold Wal.insertHostNotice at hw
    split at hw
    · cases hw
    · cases hw
      exact ⟨rfl, rfl, rfl⟩
  refine ⟨⟨h.logged.frame hrows.1 hrows.2.1, h.answers, ?_, ?_, ?_, ?_⟩, hk ▸ hat⟩
  · refine (replaySteps_congr fun k hlt => hne k ?_).trans h.reached
    have hidx := h.stepIndex
    simp only [Point.start] at hlt
    omega
  · rw [hrows.2.2]
    intro m hm
    rcases List.mem_append.mp hm with hold | hnew
    · exact h.noticed m hold
    · rw [List.mem_singleton.mp hnew]
      exact hk.le
  · intro k
    by_cases hkn : k = n.stepIndex
    · rw [hkn, hat]
      exact (h.numbered _).concat hlast
    · rw [hne k hkn]
      exact h.numbered k
  · intro id row hg hs
    rw [hrows.1] at hg
    exact absurd hs (hquiet id row hg)

end

/-! ## Model calls -/

/-- A write to a model call that neither was nor becomes an answered turn. -/
def Silent (w w' : Wal) : Prop :=
  w' = w ∨ ∃ id, LlmWrite w w' id ∧ (∀ row, w.llms.get? id = some row → row.isTurn = false) ∧
    ∀ row, w'.llms.get? id = some row → row.isTurn = false

theorem Silent.tools (h : Silent w w') : w'.tools = w.tools := by
  rcases h with rfl | ⟨id, hw, -, -⟩
  · rfl
  · exact hw.tools

theorem Silent.notices (h : Silent w w') : w'.notices = w.notices := by
  rcases h with rfl | ⟨id, hw, -, -⟩
  · rfl
  · exact hw.notices

theorem Quiet.of_tools (hq : Quiet w) (h : w'.tools = w.tools) : Quiet w' := by
  unfold Quiet
  rw [h]
  exact hq

theorem Silent.quiet (h : Silent w w') (hq : Quiet w) : Quiet w' := hq.of_tools h.tools

theorem Logged.silent (h : Logged w rounds) (hs : Silent w w') : Logged w' rounds := by
  rcases hs with rfl | ⟨id, hw, hold, hnew⟩
  · exact h
  · exact h.llmKept hw (turnEntry?_eq_none hold) hnew

theorem Follows.silent (h : Follows cfg w rounds p) (hs : Silent w w') : Follows cfg w' rounds p where
  logged := h.logged.silent hs
  answers := h.answers
  reached := (replaySteps_of_notices hs.notices _ _).trans h.reached
  noticed := hs.notices ▸ h.noticed
  numbered := fun k => noticesAt_congr hs.notices k ▸ h.numbered k
  waiting := by
    intro id row hg hd
    rw [stepAt_congr hs.notices]
    exact h.waiting id row (hs.tools ▸ hg) hd

theorem silent_markLlmDeferred {id : Nat} {now : Int} (h : w.markLlmDeferred id now = some w') : Silent w w' := by
  obtain ⟨hw, row, hb, -, he, ha⟩ := markLlmDeferred_spec h
  refine .inr ⟨id, hw, fun row' hg => ?_, fun row' hg => ?_⟩
  · rw [hb] at hg
    cases hg
    simp [LlmRow.isTurn, he]
  · rw [ha] at hg
    cases hg
    simp [LlmRow.isTurn, he]

/-- The row a call is about has the origin of the call. -/
def LlmPoint.Owns (w : Wal) (origin : LlmCallOrigin) : LlmPoint → Prop
  | .intent => True
  | .calling id | .answered id _ _ | .closing id _ _ | .failed id _ _ | .closingError id _ _ =>
    ∀ row, w.llms.get? id = some row → row.origin = origin

section Move

variable {origin : LlmCallOrigin} {spent spent' : ℚ} {q : LlmPoint} {o : LlmPoint ⊕ LlmOutcome}

/-- A move of a model call opens a round only by answering an agent's turn. -/
theorem LlmMove.silent (m : LlmMove origin w spent q w' spent' o) (hown : q.Owns w origin)
    (hno : origin = .agentTurn → ∀ r, o ≠ .inr (.ok r)) : Silent w w' := by
  cases m with
  | refused | answered | blank | failed => exact .inl rfl
  | opened id hw free hrow =>
    refine .inr ⟨id, hw, ?_, ?_⟩
    · intro row hg
      rw [free] at hg
      cases hg
    · intro row hg
      rw [hrow] at hg
      cases hg
      simp [LlmRow.isTurn]
  | charged id r cost hw hb hs ha | marked id e cost hw hb hs ha =>
    refine .inr ⟨id, hw, ?_, ?_⟩
    · intro row hg
      rw [hb] at hg
      cases hg
      simp [LlmRow.isTurn, hs]
    · intro row hg
      rw [ha] at hg
      cases hg
      simp [LlmRow.isTurn]
  | closed id r cost now hw hb hs ha =>
    refine .inr ⟨id, hw, ?_, ?_⟩
    · intro row hg
      rw [hb] at hg
      cases hg
      simp [LlmRow.isTurn, hs]
    · intro row hg
      rw [ha] at hg
      cases hg
      have horigin := hown _ hb
      have hne : origin ≠ .agentTurn := fun he => hno he r rfl
      simp [LlmRow.isTurn, horigin, hne]
  | closedError id e cost now hw hb hs ha =>
    refine .inr ⟨id, hw, ?_, ?_⟩
    · intro row hg
      rw [hb] at hg
      cases hg
      simp [LlmRow.isTurn, hs]
    · intro row hg
      rw [ha] at hg
      cases hg
      simp [LlmRow.isTurn]

theorem LlmMove.owns {q' : LlmPoint} (m : LlmMove origin w spent q w' spent' (.inl q')) (hown : q.Owns w origin) :
    q'.Owns w' origin := by
  cases m with
  | opened id hw free hrow =>
    intro row hg
    rw [hrow] at hg
    cases hg
    rfl
  | answered | blank | failed => exact hown
  | charged id r cost hw hb hs ha | marked id e cost hw hb hs ha =>
    intro row hg
    have horigin := hown _ hb
    rw [ha] at hg
    cases hg
    exact horigin

end Move

theorem Follows.turn (h : Follows cfg w rounds p) {spent spent' : ℚ} {q : LlmPoint} {r : ModelResponse}
    (m : LlmMove .agentTurn w spent q w' spent' (.inr (.ok r))) (hown : q.Owns w .agentTurn)
    (hcut : cutLast rounds = rounds) {out : StepOutput} (hstep : cfg.stepAt w p = .ok out) (hquiet : Quiet w) :
    Follows cfg w' (rounds ++ [⟨r, []⟩]) ⟨some out.state, some (.modelResult r), p.stepIndex + 1⟩ ∧ Quiet w' ∧
      w'.noticesAt (p.stepIndex + 1) = [] := by
  cases m with
  | @closed _ row id r cost now hw hb hs ha =>
    have hquiet' : Quiet w' := hquiet.of_tools hw.tools
    have hold : w.turnEntry? id = none := by
      refine turnEntry?_eq_none fun row' hg => ?_
      rw [hb] at hg
      cases hg
      simp [LlmRow.isTurn, hs]
    have hcutr : (⟨r, []⟩ : Round).cut = ⟨r, []⟩ := by simp [Round.cut]
    refine ⟨⟨?_, ?_, ?_, ?_, ?_, ?_⟩, hquiet', ?_⟩
    · refine h.logged.turnClosed hw hold ha ?_ rfl
      simp [LlmRow.turn?, LlmRow.isTurn, hown row hb]
    · intro y hy
      rcases List.mem_append.mp hy with hr | hx
      · exact h.answers y hr
      · rw [List.mem_singleton.mp hx]
        exact List.nil_prefix
    · have hreach := h.reached
      rw [hcut] at hreach
      rw [replaySteps_of_notices hw.notices, cutLast_concat, hcutr, capsOf_concat]
      have hturn := replaySteps_concat (c := .modelResult r) hreach (stepAt_recorded hstep)
      exact hturn
    · intro n hn
      rw [hw.notices] at hn
      exact Nat.le_succ_of_le (h.noticed n hn)
    · intro k
      rw [noticesAt_congr hw.notices]
      exact h.numbered k
    · intro id' row' hg hs'
      exact absurd hs' (hquiet' id' row' hg)
    · refine noticesAt_eq_nil fun n hn => ?_
      rw [hw.notices] at hn
      exact Nat.lt_succ_of_le (h.noticed n hn)

/-! ## A tool round -/

/-- The last round `x` is being performed: the step at `p` took its turn in and
dispatched its calls. -/
structure InRound (cfg : HostConfig) (w : Wal) (p : Point) (next : HarnessState) (rs : List Round) (x : Round) :
    Prop where
  logged : Logged w (rs ++ [x])
  answers : ∀ r ∈ rs ++ [x], r.Answers
  noticed : ∀ n ∈ w.notices, n.stepIndex ≤ p.stepIndex
  numbered : ∀ k, Numbered NoticeRow.seq (w.noticesAt k)
  taken : p.lastResult = some (.modelResult x.response)
  turn : replaySteps cfg w .start (capsOf (rs ++ [⟨x.response, []⟩])) = .ok p
  stepped : ∃ out, cfg.stepAt w p = .ok out ∧ out.state = next
  waiting : w.tools.All fun id row => row.status = .dispatched → x.callIds[x.results.length]? = some id

namespace InRound

theorem recorded_eq (h : InRound cfg w p next rs x) : p.recorded = p := by
  obtain ⟨state, last, k⟩ := p
  have hlast : last = some (.modelResult x.response) := h.taken
  rw [Point.recorded, hlast]
  rfl

/-- With calls unanswered, the round is performed again. -/
theorem follows (h : InRound cfg w p next rs x) (hlt : x.results.length < x.response.toolCalls.length) :
    Follows cfg w (rs ++ [x]) p where
  logged := h.logged
  answers := h.answers
  reached := by
    rw [cutLast_concat, Round.cut, if_pos hlt, h.recorded_eq]
    exact h.turn
  noticed := h.noticed
  numbered := h.numbered
  waiting := by
    intro id row hg hs
    obtain ⟨out, hout, -⟩ := h.stepped
    rw [h.recorded_eq]
    exact ⟨⟨rs, x, rfl, h.waiting id row hg hs⟩, out, hout⟩

theorem batchResult_recorded (live : List ToolCallResult) :
    (batchResult live).recorded = batchResult (live.map ToolCallResult.recorded) := by
  rcases live with _ | ⟨a, _ | ⟨b, rest⟩⟩ <;> rfl

theorem caps_full {results : List ToolCallResult} (hne : results ≠ []) (resp : ModelResponse) :
    (⟨resp, results⟩ : Round).caps = [.modelResult resp, batchResult results] := by
  rcases results with _ | ⟨a, rest⟩
  · exact absurd rfl hne
  · rfl

theorem follows_full (h : InRound cfg w p next rs x) (hfull : x.results.length = x.response.toolCalls.length)
    (hne : x.results ≠ []) {live : List ToolCallResult} (hlive : live.map ToolCallResult.recorded = x.results) :
    Follows cfg w (rs ++ [x]) (Host.roundPoint p next live) ∧ Quiet w ∧ w.noticesAt (p.stepIndex + 1) = [] := by
  have hquiet : Quiet w := by
    intro id row hg hs
    have hnext := h.waiting id row hg hs
    rw [hfull, List.getElem?_eq_none (by simp [Round.callIds])] at hnext
    cases hnext
  refine ⟨⟨h.logged, h.answers, ?_, ?_, h.numbered, ?_⟩, hquiet, ?_⟩
  · obtain ⟨out, hout, hnext⟩ := h.stepped
    have hturn := replaySteps_concat (c := batchResult x.results) h.turn hout
    have hcaps : capsOf (rs ++ [x]) = capsOf (rs ++ [⟨x.response, []⟩]) ++ [batchResult x.results] := by
      rw [capsOf_concat, capsOf_concat, caps_full hne x.response, List.append_assoc]
      rfl
    rw [cutLast_concat, Round.cut, if_neg (by omega), hcaps, hturn, Host.roundPoint, Point.recorded,
      Option.map_some, batchResult_recorded, hlive, hnext]
  · intro n hn
    exact Nat.le_succ_of_le (h.noticed n hn)
  · intro id row hg hs
    exact absurd hs (hquiet id row hg)
  · exact noticesAt_eq_nil fun n hn => Nat.lt_succ_of_le (h.noticed n hn)

theorem silent (h : InRound cfg w p next rs x) (hs : Silent w w') : InRound cfg w' p next rs x where
  logged := h.logged.silent hs
  answers := h.answers
  noticed := hs.notices ▸ h.noticed
  numbered := fun k => noticesAt_congr hs.notices k ▸ h.numbered k
  taken := h.taken
  turn := (replaySteps_of_notices hs.notices _ _).trans h.turn
  stepped := by
    rw [stepAt_congr hs.notices]
    exact h.stepped
  waiting := by
    rw [hs.tools]
    exact h.waiting

variable {id : ToolCallId}

/-- What does not depend on the row a tool write is about. -/
theorem write (h : InRound cfg w p next rs x) (hw : ToolWrite w w' id) {y : Round}
    (hresp : y.response = x.response) (hlog : Logged w' (rs ++ [y])) (hans : y.Answers)
    (hwait : w'.tools.All fun id row => row.status = .dispatched → y.callIds[y.results.length]? = some id) :
    InRound cfg w' p next rs y where
  logged := hlog
  answers := by
    intro r hr
    rcases List.mem_append.mp hr with hold | hy
    · exact h.answers r (List.mem_append_left _ hold)
    · rw [List.mem_singleton.mp hy]
      exact hans
  noticed := hw.notices ▸ h.noticed
  numbered := fun k => noticesAt_congr hw.notices k ▸ h.numbered k
  taken := hresp ▸ h.taken
  turn := by
    rw [replaySteps_of_notices hw.notices, hresp]
    exact h.turn
  stepped := by
    rw [stepAt_congr hw.notices]
    exact h.stepped
  waiting := hwait

theorem toolKept (h : InRound cfg w p next rs x) (hw : ToolWrite w w' id)
    (hnext : x.callIds[x.results.length]? = some id) (hold : w.toolEntry? id = none)
    (hnew : ∀ row, w'.tools.get? id = some row → row.status ≠ .completed) : InRound cfg w' p next rs x := by
  refine h.write hw rfl (h.logged.toolKept hw hold hnew) (h.answers x (by simp)) ?_
  exact h.waiting.write hw.tools fun _ _ _ => hnext

theorem toolClosed (h : InRound cfg w p next rs x) (hw : ToolWrite w w' id)
    (hnext : x.callIds[x.results.length]? = some id) (hold : w.toolEntry? id = none) {row : ToolRow}
    (hrow : w'.tools.get? id = some row) (hc : row.status = .completed) (hseq : row.seq = some w.nextSeq) :
    InRound cfg w' p next rs { x with results := x.results ++ [toolRowToResult id row] } ∧ Quiet w' := by
  have hquiet : Quiet w' := by
    intro id' row' hg hs
    by_cases hid : id' = id
    · subst hid
      rw [hrow] at hg
      cases hg
      rw [hc] at hs
      cases hs
    · rw [Table.get?_of_erase hw.tools hid] at hg
      have hother := (h.waiting id' row' hg hs).symm.trans hnext
      exact hid (Option.some.inj hother)
  refine ⟨h.write hw rfl ?_ ?_ fun id' row' hg hs => absurd hs (hquiet id' row' hg), hquiet⟩
  · refine h.logged.toolClosed hw hold hrow hc hseq ?_
    simp [flatten_concat, Round.flat]
  · obtain ⟨t, ht⟩ := h.answers x (by simp)
    rw [← ht, List.getElem?_append_right (by simp), List.length_map, Nat.sub_self] at hnext
    rcases t with _ | ⟨id', t⟩
    · cases hnext
    · cases hnext
      refine ⟨t, ?_⟩
      rw [List.map_append, List.append_assoc]
      exact ht

theorem toolReopened {r : ToolCallResult} (h : InRound cfg w p next rs { x with results := x.results ++ [r] })
    (hw : ToolWrite w w' id) (hid : r.toolCallId = id) (hquiet : Quiet w)
    (hnew : ∀ row, w'.tools.get? id = some row → row.status = .intent) : InRound cfg w' p next rs x := by
  refine h.write hw rfl ?_ ?_ ?_
  · refine h.logged.toolReopened hw hid ?_ fun row hg hc => ?_
    · simp [flatten_concat, Round.flat]
    · rw [hnew row hg] at hc
      cases hc
  · have hans := h.answers _ (List.mem_append_right rs (List.mem_singleton_self _))
    refine List.IsPrefix.trans ?_ hans
    simp
  · intro id' row hg hs
    by_cases hne : id' = id
    · subst hne
      rw [hnew row hg] at hs
      cases hs
    · rw [Table.get?_of_erase hw.tools hne] at hg
      exact absurd hs (hquiet id' row hg)

/-- With the ids distinct, a closed row of a call is the result at its place. -/
theorem closed_row (h : InRound cfg w p next rs x) (hnd : (requestedIds (rs ++ [x])).Nodup) {n : Nat}
    (hn : x.callIds[n]? = some id) {row : ToolRow} (hg : w.tools.get? id = some row)
    (hc : row.status = .completed) : x.results[n]? = some (toolRowToResult id row) :=
  results_getElem? hnd h.answers (h.logged.mem_results.mpr ⟨row, hg, hc, rfl⟩) hn

theorem open_row (h : InRound cfg w p next rs x) {n : Nat} (hn : x.callIds[n]? = some id)
    (hopen : ∀ row, w.tools.get? id = some row → row.status ≠ .completed) : x.results.length ≤ n := by
  by_contra hlt
  push Not at hlt
  have hr : x.results[n]? = some x.results[n] := List.getElem?_eq_getElem hlt
  have hid : x.callIds[n]? = some x.results[n].toolCallId := by
    refine getElem?_of_prefix (h.answers x (by simp)) ?_
    rw [List.getElem?_map, hr]
    rfl
  have hsame : x.results[n].toolCallId = id := Option.some.inj (hid.symm.trans hn)
  obtain ⟨row, hg, hc, -⟩ := h.logged.mem_results.mp ⟨x, by simp, List.mem_of_getElem? hr⟩
  rw [hsame] at hg
  exact hopen row hg hc

end InRound

end FactorQ.Reducer
