/-
# `FactorQ.Reducer.Resume` — a resume picks the run up where it stood

Every move of the loop keeps `Stands`, and so do a crash, a resume and the
operator's closing of interrupted calls, as long as the ids the model requests
are distinct.  So a resume reaches the point the run stood at.

The rows do not keep the kind of a tool error nor how long a call took.  The
point a resume reaches has the state and the step index of the run, and its last
result without these two.
-/
import FactorQ.Reducer.Requests
import FactorQ.Reducer.Stands

namespace FactorQ.Reducer

open Lib Wal

variable {cfg : HostConfig} {w w' : Wal} {rounds rs : List Round} {x : Round} {p : Point} {next : HarnessState}

/-! ## Each move keeps the invariant -/

variable {done : List ToolCallResult} {rest : List ToolCallRequest} {req : ToolCallRequest}
    {q : ToolPoint}

theorem AtCall.move {spent spent' : ℚ} {executed : Option ToolCallResult} {move : ToolMove}
    (h : AtCall cfg w p next done req rest q rs x) (hnd : (requestedIds (rs ++ [x])).Nodup)
    (m : ToolStep cfg req w spent q w' spent' executed move) :
    match move with
    | .goes q' => ∃ y, AtCall cfg w' p next done req rest q' rs y
    | .answer r => w' = w ∧ Quiet w ∧
        ((done ++ [r]).map ToolCallResult.recorded = x.results ∨
          (done ++ [r]).map ToolCallResult.recorded <+: x.results ∧
            x.results.length < x.response.toolCalls.length)
    | .abort r => w' = w ∧ (done ++ [r]).map ToolCallResult.recorded = x.results := by
  have hholds := h.holds
  -- a row that is not closed: its call is the next one
  have hnone : x.results = done.map ToolCallResult.recorded → w.toolEntry? req.toolCallId = none := by
    intro hres
    refine toolEntry?_eq_none fun row hg hc => ?_
    have hat := h.round.closed_row hnd (h.nextCall hres) hg hc
    rw [List.getElem?_eq_none (Nat.le_refl _)] at hat
    cases hat
  cases m with
  | recorded row hg hc =>
    obtain ⟨hquiet, hpre, hlt⟩ := hholds
    have hat := h.round.closed_row hnd h.callId hg hc
    refine ⟨rfl, hquiet, .inr ⟨?_, hlt⟩⟩
    obtain ⟨t, ht⟩ := hpre
    rw [← ht, List.getElem?_append_right (by simp), List.length_map, Nat.sub_self] at hat
    rcases t with _ | ⟨r, t⟩
    · cases hat
    · cases hat
      refine ⟨t, ?_⟩
      rw [← ht, List.map_append, List.append_assoc]
      rfl
  | admitted hopen =>
    obtain ⟨hquiet, hpre, hlt⟩ := hholds
    have hle := h.round.open_row h.callId hopen
    have hres : x.results = done.map ToolCallResult.recorded := by
      refine (hpre.eq_of_length (Nat.le_antisymm hpre.length_le ?_)).symm
      rw [List.length_map]
      exact hle
    refine ⟨x, h.round, h.calls, ?_⟩
    unfold ToolPoint.step.afterPermission
    split <;> exact hres
  | opened hopens hw ha =>
    have hres : x.results = done.map ToolCallResult.recorded := by
      cases hopens <;> exact hholds
    refine ⟨x, h.round.toolKept hw (h.nextCall hres) (hnone hres) ?_, h.calls, ?_⟩
    · intro row hg
      rw [ha] at hg
      cases hg
      exact DispatchStatus.noConfusion
    · cases hopens <;> exact hres
  | reopened hw ha =>
    obtain ⟨hquiet, hres⟩ := hholds
    have hround := h.round
    refine ⟨{ x with results := done.map ToolCallResult.recorded }, ?_, h.calls, rfl⟩
    have hx : x = { ({ x with results := done.map ToolCallResult.recorded } : Round) with
        results := done.map ToolCallResult.recorded ++
          [(syntheticResult req.toolCallId .executionFailed
            (missingToolMessage (cfg.prepare req).toolName)).recorded] } := by
      rw [← hres]
    rw [hx] at hround
    refine hround.toolReopened hw rfl hquiet fun row hg => ?_
    rw [ha] at hg
    cases hg
    rfl
  | dispatched now hdisp hw hb hs ha =>
    have hres : x.results = done.map ToolCallResult.recorded := by
      cases hdisp <;> exact hholds
    refine ⟨x, h.round.toolKept hw (h.nextCall hres) (hnone hres) ?_, h.calls, ?_⟩
    · intro row hg
      rw [ha] at hg
      cases hg
      exact DispatchStatus.noConfusion
    · cases hdisp with
      | inspect own r hid => exact ⟨hres, hid⟩
      | run | missing | synthetic => exact hres
  | @closed _ q' r _ row now hcloses hw hb hs ha =>
    have hres : x.results = done.map ToolCallResult.recorded ∧ r.toolCallId = req.toolCallId := by
      cases hcloses with
      | missing | synthetic => exact ⟨hholds, rfl⟩
      | returned r => exact hholds
    obtain ⟨hround, hquiet⟩ := h.round.toolClosed hw (h.nextCall hres.1) (hnone hres.1) ha rfl rfl
    refine ⟨_, hround, h.calls, ?_⟩
    have hrec : x.results ++ [toolRowToResult req.toolCallId { row with
        status := .completed, result := some r.output, isError := some r.isError,
        completedAt := some now, seq := some w.nextSeq }] =
        done.map ToolCallResult.recorded ++ [r.recorded] := by
      rw [hres.1, toolRowToResult, ToolCallResult.recorded, hres.2]
      rfl
    cases hcloses <;> exact ⟨hquiet, hrec⟩
  | ran r hid => exact ⟨x, h.round, h.calls, hholds, hid⟩
  | serves origin => exact ⟨x, h.round, h.calls, hholds, trivial⟩
  | @serving origin _ _ _ _ m =>
    have hs := m.silent hholds.2 fun he => by cases origin <;> cases he
    exact ⟨x, h.round.silent hs, h.calls, hholds.1, m.owns hholds.2⟩
  | @served origin _ _ _ _ m =>
    have hs := m.silent hholds.2 fun he => by cases origin <;> cases he
    exact ⟨x, h.round.silent hs, h.calls, hholds.1⟩
  | judged r =>
    refine ⟨rfl, hholds.1, .inl ?_⟩
    rw [List.map_append]
    exact hholds.2.symm
  | streak r =>
    refine ⟨rfl, ?_⟩
    rw [List.map_append]
    exact hholds.2.symm

namespace Host

variable {h h' : Host} {e : Env}

/-- What a host needs for the invariant, read off its rows and where it goes. -/
abbrev Standing (cfg : HostConfig) (h : Host) : Prop := Stands cfg h.wal h.pc

theorem standing_reduced {out : StepOutput} {pc' : Pc} (hf : Follows cfg h.wal rounds p) (hquiet : Quiet h.wal)
    (hstep : cfg.stepAt h.wal p = .ok out) (hperf : Performs cfg h.spent p out pc') :
    Standing cfg ((h.store (h.wal.upsertInvocationState (rowOf p out e.now))).goto pc') := by
  have hw := upsertInvocationState_spec h.wal (rowOf p out e.now)
  have hf' : Follows cfg (h.wal.upsertInvocationState (rowOf p out e.now)) rounds p :=
    hf.frame hw.tools hw.llms hw.notices
  have hquiet' : Quiet (h.wal.upsertInvocationState (rowOf p out e.now)) := hquiet.of_tools hw.tools
  have hstep' : cfg.stepAt (h.wal.upsertInvocationState (rowOf p out e.now)) p = .ok out :=
    (stepAt_congr hw.notices p).trans hstep
  cases hperf with
  | failed | completed => exact ⟨rounds, p, hf'⟩
  | exhausted => exact ⟨rounds, hf'⟩
  | model q action phase noCalls below =>
    exact ⟨rounds, hf', hquiet', hf.cutLast_eq noCalls, ⟨out, hstep', rfl⟩, trivial⟩
  | tools r req rest taken calls action phase asked =>
    have hsome : r.toolCalls ≠ [] := by
      rw [calls]
      exact List.cons_ne_nil _ _
    obtain ⟨rs, x, hx, hround, hlt⟩ := hf'.tools hquiet' taken hsome hstep'
    exact ⟨rs, x, hround, ⟨[], hx ▸ calls, rfl⟩, hquiet', List.nil_prefix, hlt⟩

theorem standing_silent {q : LlmPoint} {w' : Wal} {spent' : ℚ} {o : LlmPoint ⊕ LlmOutcome}
    (hs : Stands cfg h.wal (.model p next q)) (m : LlmMove .agentTurn h.wal h.spent q w' spent' o)
    (hno : ∀ r, o ≠ .inr (.ok r)) :
    ∃ rounds, Follows cfg w' rounds p ∧ Quiet w' ∧ cutLast rounds = rounds ∧
      (∃ out, cfg.stepAt w' p = .ok out ∧ out.state = next) := by
  obtain ⟨rounds, hf, hquiet, hcut, ⟨out, hstep, hout⟩, hown⟩ := hs
  have hsil := m.silent hown fun _ r hr => hno r hr
  exact ⟨rounds, hf.silent hsil, hsil.quiet hquiet, hcut, out, (stepAt_congr hsil.notices p).trans hstep, hout⟩

variable {r : ToolCallResult}

theorem standing_roundDone (hc : AtCall cfg w p next done req [] q rs x) (hquiet : Quiet w)
    (hres : (done ++ [r]).map ToolCallResult.recorded = x.results ∨ (done ++ [r]).map ToolCallResult.recorded <+: x.results ∧ x.results.length < x.response.toolCalls.length) :
    Stands cfg w (.boundary (roundPoint p next (done ++ [r])) []) := by
  have hlen := hc.length_calls
  rw [List.length_nil] at hlen
  rcases hres with heq | ⟨hpre, hlt⟩
  · have hfull : x.results.length = x.response.toolCalls.length := by
      rw [← heq, List.length_map, List.length_append, hlen]
      rfl
    have hne : x.results ≠ [] := by
      rw [← heq]
      simp
    obtain ⟨hf, -, hnone⟩ := hc.round.follows_full hfull hne heq
    exact ⟨_, hf, hquiet, hnone.symm⟩
  · have hle := hpre.length_le
    simp only [List.length_map, List.length_append, List.length_singleton] at hle
    omega

theorem standing_answered {req req' : ToolCallRequest} (hc : AtCall cfg w p next done req (req' :: rest) q rs x)
    (hquiet : Quiet w)
    (hres : (done ++ [r]).map ToolCallResult.recorded = x.results ∨ (done ++ [r]).map ToolCallResult.recorded <+: x.results ∧ x.results.length < x.response.toolCalls.length) :
    Stands cfg w (.tools p next (done ++ [r]) req' rest .start) := by
  have hlen := hc.length_calls
  rw [List.length_cons] at hlen
  refine ⟨rs, x, hc.round, hc.calls_tail r, hquiet, ?_⟩
  rcases hres with heq | ⟨hpre, hlt⟩
  · refine ⟨heq ▸ List.prefix_rfl, ?_⟩
    rw [← heq, List.length_map, List.length_append, List.length_singleton]
    omega
  · exact ⟨hpre, hlt⟩

theorem standing_aborted (hc : AtCall cfg w p next done req rest q rs x)
    (hres : (done ++ [r]).map ToolCallResult.recorded = x.results) :
    ∃ rounds, Follows cfg w rounds (if rest.isEmpty then roundPoint p next (done ++ [r]) else p) := by
  have hlen := hc.length_calls
  have hcount : x.results.length = done.length + 1 := by
    rw [← hres]
    simp
  cases rest with
  | nil =>
    rw [List.length_nil] at hlen
    have hne : x.results ≠ [] := by
      rw [← hres]
      simp
    exact ⟨_, (hc.round.follows_full (by omega) hne hres).1⟩
  | cons req' rest' =>
    rw [List.length_cons] at hlen
    exact ⟨_, hc.round.follows (by omega)⟩

theorem standing_move (m : Move cfg e h h') (hnd : h.wal.requestedIds.Nodup) (hs : Standing cfg h) :
    Standing cfg h' := by
  have hat : ∀ pc, h.pc = pc → Stands cfg h.wal pc := fun pc hpc => hpc ▸ hs
  cases m with
  | overrun p carried pc =>
    obtain ⟨rounds, hf, -⟩ := hat _ pc
    exact ⟨rounds, hf⟩
  | drained p carried pc =>
    have hstands := hat _ pc
    exact hstands
  | suspended p carried pc =>
    obtain ⟨rounds, hf, -⟩ := hat _ pc
    exact ⟨rounds, p, hf⟩
  | rejected p carried pc =>
    obtain ⟨rounds, hf, -⟩ := hat _ pc
    exact ⟨rounds, hf⟩
  | noticed p carried n pending pc hstep hseq insert =>
    obtain ⟨rounds, hf, hquiet, hcarried⟩ := hat _ pc
    obtain ⟨hf', hnotices⟩ := hf.notice insert hstep (by
      intro m hm
      rw [hstep, ← hcarried] at hm
      rw [hseq]
      exact lt_noticeSeq hm) hquiet
    refine ⟨rounds, hf', ?_, ?_⟩
    · rw [insertHostNotice_spec insert]
      exact hquiet
    · show carried ++ [n] = _
      rw [hcarried]
      exact hnotices.symm
  | reduced p carried out pc step performs =>
    obtain ⟨rounds, hf, hquiet, hcarried⟩ := hat _ pc
    rw [hcarried] at step
    exact standing_reduced hf hquiet step performs
  | called p next pc m =>
    obtain ⟨rounds, hf, hquiet, hcut, hstep⟩ := standing_silent (hat _ pc) m (by simp)
    obtain ⟨-, -, -, -, -, hown⟩ := hat _ pc
    exact ⟨rounds, hf, hquiet, hcut, hstep, m.owns hown⟩
  | replied p next r pc m =>
    obtain ⟨rounds, hf, hquiet, hcut, ⟨out, hstep, rfl⟩, hown⟩ := hat _ pc
    obtain ⟨hf', hquiet', hnone⟩ := hf.turn m hown hcut hstep hquiet
    exact ⟨_, hf', hquiet', hnone⟩
  | refused p next pc m =>
    obtain ⟨rounds, hf, -⟩ := standing_silent (hat _ pc) m (by simp)
    exact ⟨rounds, hf⟩
  | rateLimited p next id text pc m | broken p next id text pc m =>
    obtain ⟨rounds, hf, -⟩ := standing_silent (hat _ pc) m (by simp)
    exact ⟨rounds, hf⟩
  | overspent p next r pc =>
    obtain ⟨rounds, hf, -⟩ := hat _ pc
    exact ⟨rounds, hf⟩
  | advanced p next r pc _ =>
    obtain ⟨rounds, hf, hquiet, hnone⟩ := hat _ pc
    exact ⟨rounds, hf, hquiet, hnone.symm⟩
  | stamped p id pc stamp =>
    obtain ⟨rounds, hf⟩ := hat _ pc
    exact ⟨rounds, hf.silent (silent_markLlmDeferred stamp)⟩
  | putDown p pc =>
    obtain ⟨rounds, hf⟩ := hat _ pc
    have hw := markDeferred_spec h.wal
    exact ⟨rounds, hf.frame hw.tools hw.llms hw.notices⟩
  | toolWent p next done req rest pc m =>
    obtain ⟨rs, x, hc⟩ := hat _ pc
    obtain ⟨y, hy⟩ := hc.move (hc.round.logged.requestedIds_perm.nodup_iff.mp hnd) m
    exact ⟨rs, y, hy⟩
  | toolAborted p next done req rest r pc m =>
    obtain ⟨rs, x, hc⟩ := hat _ pc
    obtain ⟨rfl, hres⟩ := hc.move (hc.round.logged.requestedIds_perm.nodup_iff.mp hnd) m
    exact standing_aborted hc hres
  | toolAnswered p next done req req' rest r pc m =>
    obtain ⟨rs, x, hc⟩ := hat _ pc
    obtain ⟨rfl, hquiet, hres⟩ := hc.move (hc.round.logged.requestedIds_perm.nodup_iff.mp hnd) m
    exact standing_answered hc hquiet hres
  | roundDone p next done req r pc m =>
    obtain ⟨rs, x, hc⟩ := hat _ pc
    obtain ⟨rfl, hquiet, hres⟩ := hc.move (hc.round.logged.requestedIds_perm.nodup_iff.mp hnd) m
    exact standing_roundDone hc hquiet hres
  | unstamped | announced | lost => exact Stands.base hs
  | failed p kind call pc =>
    have hstands := hat _ pc
    cases p <;> exact hstands
  | ended p kind call pc =>
    obtain ⟨rounds, q, hf⟩ := Stands.base hs
    have hw := ensureTerminal_spec h.wal .failed e.now
    exact ⟨rounds, q, hf.frame hw.tools hw.llms hw.notices⟩
  | completed | archived | kept => exact Stands.base hs
  | handedOff o pc =>
    obtain ⟨rounds, q, hf⟩ := Stands.base hs
    exact ⟨rounds, q, hf.frame rfl rfl rfl⟩
  | idle => exact hs

end Host

/-! ## Crash, resume, and the operator -/

/-- A resume that re-enters the loop found the invocation open and unambiguous. -/
theorem noLostFailure_of_collectTurns {rows : List (Nat × LlmRow)} {ts : List (SortKey × CapabilityResult)}
    (h : collectTurns rows = .ok (.turns ts)) :
    ∀ r ∈ rows, r.2.origin = .agentTurn → r.2.status = .completed → r.2.isError = some true →
      r.2.deferredAt.isSome = true := by
  induction rows generalizing ts with
  | nil => simp
  | cons r rest ih =>
    obtain ⟨id, r⟩ := r
    rw [collectTurns] at h
    intro s hs horigin hstatus herror
    split at h
    · next hskip =>
      rcases List.mem_cons.mp hs with rfl | hmem
      · rcases hskip with hne | hne
        · exact absurd horigin hne
        · exact absurd hstatus hne
      · exact ih h s hmem horigin hstatus herror
    · split at h
      · split at h
        · next hd =>
          rcases List.mem_cons.mp hs with rfl | hmem
          · exact hd
          · exact ih h s hmem horigin hstatus herror
        · cases h
      · next hok =>
        rcases List.mem_cons.mp hs with rfl | hmem
        · exact absurd herror hok
        · split at h
          · split at h
            · next hrest => exact ih hrest s hmem horigin hstatus herror
            · next hother => exact absurd h (by
                intro hturns
                exact hother _ hturns)
          · cases h

theorem resume_inv {q : Point} (h : w.resume cfg = .ok (.resumesAt q)) :
    ∃ row, w.state = some row ∧ row.terminalAt = none ∧ w.isAmbiguous = false ∧ w.NoLostFailure := by
  unfold Wal.resume at h
  split at h
  · cases h
  · next row hrow =>
    split at h
    · cases h
    · next hopen =>
      split at h
      · cases h
      · next hamb =>
        split at h
        · cases h
        · cases h
        · next rows hrows =>
          refine ⟨row, hrow, ?_, by simpa using hamb, noLostFailure_of_collectTurns hrows⟩
          cases hterm : row.terminalAt with
          | none => rfl
          | some t => simp [hterm] at hopen

theorem quiet_of_unambiguous (h : w.isAmbiguous = false) : Quiet w := by
  intro id row hg hs
  unfold Wal.isAmbiguous at h
  rw [Bool.or_eq_false_iff, List.any_eq_false] at h
  exact h.1 (id, row) (Table.mem_rows.mpr hg) (by simpa using hs)

/-- What a resume finds in rows that follow a point. -/
theorem Follows.resume (hf : Follows cfg w rounds p) {row : StateRow} (hrow : w.state = some row)
    (hopen : row.terminalAt = none) (hamb : w.isAmbiguous = false) (hlost : w.NoLostFailure) :
    w.resume cfg = .ok (.resumesAt p.recorded) :=
  hf.logged.resume hrow hopen hamb hlost hf.reached

/-- At most one call can be cut off, since all of them are the next one. -/
theorem interruptedCalls_cases {id : ToolCallId} (h : ∀ r ∈ w.interruptedCalls, r.1 = id) :
    w.interruptedCalls = [] ∨ ∃ row, w.interruptedCalls = [(id, row)] := by
  have hperm : w.interruptedCalls.Perm (w.tools.rows.filter fun r => r.2.status = .dispatched) :=
    List.perm_insertionSort _ _
  have hnd : (w.interruptedCalls.map Prod.fst).Nodup :=
    (hperm.map _).nodup_iff.mpr (w.tools.nodup.sublist (List.filter_sublist.map _))
  rcases hcalls : w.interruptedCalls with _ | ⟨a, _ | ⟨b, rest⟩⟩
  · exact .inl rfl
  · refine .inr ⟨a.2, ?_⟩
    have ha := h a (by simp [hcalls])
    rw [← ha]
  · have ha := h a (by simp [hcalls])
    have hb := h b (by simp [hcalls])
    rw [hcalls] at hnd
    simp [ha, hb] at hnd

theorem mem_interruptedCalls {r : ToolCallId × ToolRow} (h : r ∈ w.interruptedCalls) :
    w.tools.get? r.1 = some r.2 ∧ r.2.status = .dispatched := by
  have hmem := (List.perm_insertionSort _ _).mem_iff.mp h
  rw [List.mem_filter] at hmem
  exact ⟨Table.mem_rows.mp hmem.1, by simpa using hmem.2⟩

theorem Follows.inject (hf : Follows cfg w rounds p) (render : Int → String) :
    ∃ rounds p, Follows cfg (w.injectInterruptedResults render) rounds p := by
  unfold injectInterruptedResults
  rcases hcalls : w.interruptedCalls with _ | ⟨⟨id, row⟩, rest⟩
  · exact ⟨rounds, p, hf⟩
  · have hmem : (id, row) ∈ w.interruptedCalls := by
      rw [hcalls]
      exact List.mem_cons_self
    obtain ⟨hg, hs⟩ := mem_interruptedCalls hmem
    obtain ⟨⟨rs, x, rfl, hnext⟩, out, hout⟩ := hf.waiting id row hg hs
    have hwait : w.tools.All fun id row => row.status = .dispatched → x.callIds[x.results.length]? = some id := by
      intro id' row' hg' hs'
      obtain ⟨⟨rs', x', heq, hnext'⟩, -⟩ := hf.waiting id' row' hg' hs'
      obtain ⟨-, hx⟩ := List.append_inj' heq rfl
      cases hx
      exact hnext'
    have hone : rest = [] := by
      have hall : ∀ r ∈ w.interruptedCalls, r.1 = id := by
        intro r hr
        obtain ⟨hg', hs'⟩ := mem_interruptedCalls hr
        exact Option.some.inj ((hwait r.1 r.2 hg' hs').symm.trans hnext)
      rcases interruptedCalls_cases hall with hnil | ⟨row', hsingle⟩
      · rw [hnil] at hcalls
        cases hcalls
      · rw [hsingle] at hcalls
        cases hcalls
        rfl
    subst hone
    have hlt : x.results.length < x.response.toolCalls.length := by
      have hlen := (List.getElem?_eq_some_iff.mp hnext).1
      rwa [Round.callIds, List.length_map] at hlen
    have hround := hf.inRound hlt hout hwait
    obtain ⟨hw, row', hrow, hdone, hseq⟩ := interrupt_spec render hg
    have hold : w.toolEntry? id = none := by
      refine toolEntry?_eq_none fun row' hg' => ?_
      rw [hg] at hg'
      cases hg'
      rw [hs]
      exact DispatchStatus.noConfusion
    obtain ⟨hclosed, -⟩ := hround.toolClosed hw hnext hold hrow hdone hseq
    by_cases hmore : (x.results ++ [toolRowToResult id row']).length < x.response.toolCalls.length
    · exact ⟨_, _, hclosed.follows hmore⟩
    · have hfull : (x.results ++ [toolRowToResult id row']).length = x.response.toolCalls.length := by
        rw [List.length_append, List.length_singleton] at hmore ⊢
        omega
      have hrec := hclosed.logged.results_recorded (List.mem_append_right _ (List.mem_singleton_self _))
      exact ⟨_, _, (hclosed.follows_full hfull (by simp) hrec).1⟩

namespace Host

variable {h h' : Host}

theorem standing_resumes (m : Resumes cfg h h') (hs : Standing cfg h) : Standing cfg h' := by
  have hbase : ∃ rounds p, Follows cfg h.wal rounds p := Stands.base hs
  -- the point the rows give is the one they follow
  have hpoint : ∀ q, h.wal.resume cfg = .ok (.resumesAt q) →
      ∃ rounds, Follows cfg h.wal rounds q ∧ Quiet h.wal := by
    intro q hq
    obtain ⟨rounds, p, hf⟩ := hbase
    obtain ⟨row, hrow, hopen, hamb, hlost⟩ := resume_inv hq
    rw [hf.resume hrow hopen hamb hlost] at hq
    cases hq
    exact ⟨rounds, hf.recorded, quiet_of_unambiguous hamb⟩
  cases m with
  | refused => exact hs
  | failure => exact hbase
  | overspent o q pc hq =>
    obtain ⟨rounds, hf, -⟩ := hpoint q hq
    exact ⟨rounds, hf⟩
  | entered o q pc hq _ =>
    obtain ⟨rounds, hf, hquiet⟩ := hpoint q hq
    exact ⟨rounds, hf, hquiet, rfl⟩

theorem standing_act {a : Action} (hnd : h.wal.requestedIds.Nodup) (hs : Standing cfg h) :
    Standing cfg (h.act cfg a) := by
  cases a with
  | step e => exact standing_move step_move hnd hs
  | crash => exact Stands.base hs
  | resume => exact standing_resumes resume_resumes hs
  | inject render =>
    dsimp only [act]
    rcases inject_cases (h := h) render with heq | ⟨o, hpc, heq⟩
    · rw [heq]
      exact hs
    · obtain ⟨rounds, p, hf⟩ := Stands.base hs
      have hf' := hf.inject render
      rw [heq]
      show Stands cfg _ h.pc
      rw [hpc]
      exact hf'

/-- The run lemma: the rows follow every run whose ids are distinct. -/
theorem standing_run {schedule : List Action} (hs : Standing cfg h)
    (hnd : (h.run cfg schedule).wal.requestedIds.Nodup) : Standing cfg (h.run cfg schedule) := by
  induction schedule generalizing h with
  | nil => exact hs
  | cons a rest ih =>
    exact ih (standing_act (nodup_requestedIds_of_run (a :: rest) hnd) hs) hnd

theorem standing_init : Standing cfg Host.init := ⟨[], Follows.start, Table.All.empty, rfl⟩

end Host

/-- The error kind of the result a point holds. -/
def Point.errorKind (p : Point) : Option ToolErrorKind :=
  match p.lastResult with
  | some (.toolResult r) => r.errorKind
  | _ => none

def Resumed.errorKind : Except ResumeError Resumed → Option ToolErrorKind
  | .ok (.resumesAt p) => p.errorKind
  | _ => none

end FactorQ.Reducer
