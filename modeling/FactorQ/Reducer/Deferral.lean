/-
# `FactorQ.Reducer.Deferral` — a deferral is not a failure

A turn that comes back rate limited is put down by three writes: its row is
closed as an error, the row is stamped, and the state row says deferred.  A
resume tells such a row from a failure that was cut off by the stamp alone.

So the stamp decides.  As long as the process does not stop between the close of
the row and its stamp, no failure is ever told on account of the call; and
wherever else it stops, the rows still give the step of the call, and that step
asks for the model again.  Stopped in between, a resume takes the row for a lost
failure and ends the invocation.
-/
import FactorQ.Lib.Interleave
import FactorQ.Reducer.Budget
import FactorQ.Reducer.Resume

namespace FactorQ.Reducer

open Lib Wal

variable {cfg : HostConfig} {w w' : Wal} {p : Point} {next : HarnessState} {spent spent' : ℚ}
  {origin : LlmCallOrigin} {q : LlmPoint} {o : LlmPoint ⊕ LlmOutcome}

/-! ## Closed rows -/

/-- The row of `id` is closed. -/
def Wal.LlmClosed (w : Wal) (id : Nat) : Prop := ∃ row, w.llms.get? id = some row ∧ row.status = .completed

/-- Rows stay, closed rows stay as they are, and any other closed row is `new`. -/
structure KeepsRows (w w' : Wal) (new : Nat → LlmRow → Prop) : Prop where
  rows : ∀ id, (w.llms.get? id).isSome = true → (w'.llms.get? id).isSome = true
  kept : ∀ id row, w.llms.get? id = some row → row.status = .completed → w'.llms.get? id = some row
  closed : ∀ id row, w'.llms.get? id = some row → row.status = .completed →
    w.llms.get? id = some row ∨ new id row

theorem KeepsRows.of_llms {new : Nat → LlmRow → Prop} (h : w'.llms = w.llms) : KeepsRows w w' new where
  rows := by
    intro id hid
    rwa [h]
  kept := by
    intro id row hg _
    rwa [h]
  closed := by
    intro id row hg _
    rw [h] at hg
    exact .inl hg

theorem KeepsRows.mono {new new' : Nat → LlmRow → Prop} (h : KeepsRows w w' new)
    (hnew : ∀ id row, new id row → new' id row) : KeepsRows w w' new' :=
  ⟨h.rows, h.kept, fun id row hg hs => (h.closed id row hg hs).imp_right (hnew id row)⟩

theorem KeepsRows.write {id : Nat} {row' : LlmRow} (hw : LlmWrite w w' id)
    (before : ∀ row, w.llms.get? id = some row → row.status ≠ .completed)
    (after : w'.llms.get? id = some row') :
    KeepsRows w w' fun k row => k = id ∧ row = row' ∧ row'.status = .completed where
  rows := by
    intro k hk
    by_cases hkk : k = id
    · rw [hkk, after]
      rfl
    · rwa [Table.get?_of_erase hw.llms hkk]
  kept := by
    intro k row hg hs
    by_cases hkk : k = id
    · exact absurd hs (before row (hkk ▸ hg))
    · rwa [Table.get?_of_erase hw.llms hkk]
  closed := by
    intro k row hg hs
    by_cases hkk : k = id
    · rw [hkk, after] at hg
      cases hg
      exact .inr ⟨hkk, rfl, hs⟩
    · rw [Table.get?_of_erase hw.llms hkk] at hg
      exact .inl hg

/-- The row a call closes, and how. -/
def Closes (w : Wal) (q : LlmPoint) (o : LlmPoint ⊕ LlmOutcome) (id : Nat) (row : LlmRow) : Prop :=
  (∃ old, w.llms.get? id = some old ∧ row.origin = old.origin) ∧
    ((∃ r cost, q = .closing id r cost ∧ row.isError = some false) ∨
      ∃ e cost, q = .closingError id e cost ∧ o = .inr (.error id e))

theorem LlmMove.keepsRows (m : LlmMove origin w spent q w' spent' o) : KeepsRows w w' (Closes w q o) := by
  have hne : ∀ {id : Nat} {row : LlmRow} {s : DispatchStatus}, w.llms.get? id = some row → row.status = s →
      s ≠ .completed → ∀ row', w.llms.get? id = some row' → row'.status ≠ .completed := by
    intro id row s hg hs hno row' hg'
    rw [hg] at hg'
    cases hg'
    rwa [hs]
  cases m with
  | refused | answered | blank | failed => exact .of_llms rfl
  | opened id hw free hrow =>
    refine (KeepsRows.write hw (fun row hg => ?_) hrow).mono ?_
    · rw [free] at hg
      cases hg
    · rintro k row ⟨-, -, hs⟩
      cases hs
  | charged id r cost hw hb hs ha | marked id e cost hw hb hs ha =>
    refine (KeepsRows.write hw (hne hb hs DispatchStatus.noConfusion) ha).mono ?_
    rintro k row ⟨-, -, hs⟩
    cases hs
  | closed id r cost now hw hb hs ha =>
    refine (KeepsRows.write hw (hne hb hs DispatchStatus.noConfusion) ha).mono ?_
    rintro k row ⟨rfl, rfl, -⟩
    exact ⟨⟨_, hb, rfl⟩, .inl ⟨r, cost, rfl, rfl⟩⟩
  | closedError id e cost now hw hb hs ha =>
    refine (KeepsRows.write hw (hne hb hs DispatchStatus.noConfusion) ha).mono ?_
    rintro k row ⟨rfl, rfl, -⟩
    exact ⟨⟨_, hb, rfl⟩, .inr ⟨e, cost, rfl, rfl⟩⟩

theorem LlmMove.keepsRows_inl {q' : LlmPoint} (m : LlmMove origin w spent q w' spent' (.inl q')) :
    KeepsRows w w' fun _ _ => False := by
  refine m.keepsRows.mono ?_
  rintro id row ⟨-, ⟨r, cost, rfl, -⟩ | ⟨e, cost, -, ho⟩⟩
  · cases m
  · cases ho

/-! ## The invariant -/

/-- What is known of the call of an agent's turn. -/
def LlmPoint.Limits (limited : List Nat) (w : Wal) : LlmPoint → Prop
  | .intent => True
  | .calling id => id ∉ limited ∧ ∃ row, w.llms.get? id = some row ∧ row.status = .intent
  | .answered id _ _ | .closing id _ _ => id ∉ limited
  | .failed id e _ | .closingError id e _ => id ∈ limited → ∃ text, e = .rateLimited text

/-- The call is none of the rate-limited ones. -/
def LlmPoint.Apart (limited : List Nat) : LlmPoint → Prop
  | .intent => True
  | .calling id | .answered id _ _ | .closing id _ _ | .failed id _ _ | .closingError id _ _ => id ∉ limited

def Limits (limited : List Nat) (w : Wal) : Pc → Prop
  | .model _ _ q => q.Limits limited w
  | .tools _ _ _ _ _ (.serving origin q) => q.Apart limited ∧ q.Owns w origin.origin
  | .deferring _ id => ∃ row, w.llms.get? id = some row ∧ row.status = .completed ∧ row.isError = some true
  | .failing _ _ (some id) _ => id ∉ limited ∧ w.LlmClosed id
  | _ => True

structure Deferral (h : Host) : Prop where
  rows : ∀ id ∈ h.limited, (h.wal.llms.get? id).isSome = true
  /-- the closed row of a rate-limited call is stamped, but for the one being put down -/
  stamped : ∀ id ∈ h.limited, ∀ row, h.wal.llms.get? id = some row → row.status = .completed →
    row.deferredAt.isSome = true ∨ ∃ p, h.pc = .deferring p id
  /-- while the loop runs, no turn has failed for good -/
  settled : h.pc.ending = false → ∀ id row, h.wal.llms.get? id = some row → row.origin = .agentTurn →
    row.status = .completed → row.isError = some true →
      row.deferredAt.isSome = true ∨ ∃ p, h.pc = .deferring p id
  point : Limits h.limited h.wal h.pc
  told : ∀ kind id, .failed kind (some id) ∈ h.events → id ∉ h.limited ∧ h.wal.LlmClosed id

/-- What excuses a row that is closed now: it is the one being put down, or it is
no rate-limited call and no failed turn. -/
def Excused (h : Host) (id : Nat) (row : LlmRow) : Prop :=
  (∃ p, h.pc = .deferring p id) ∨
    id ∉ h.limited ∧ (h.pc.ending = false → row.origin = .agentTurn → row.isError ≠ some true)

theorem Deferral.move {h h' : Host} (hd : Deferral h) (hno : ∀ p id, h.pc ≠ .deferring p id)
    (hk : KeepsRows h.wal h'.wal (Excused h'))
    (hlim : ∀ id ∈ h'.limited, id ∈ h.limited ∨ ∃ row, h'.wal.llms.get? id = some row ∧ row.status = .intent)
    (hev : ∀ kind id, .failed kind (some id) ∈ h'.events →
      .failed kind (some id) ∈ h.events ∨ id ∉ h'.limited ∧ h'.wal.LlmClosed id)
    (hloop : h'.pc.ending = false → h.pc.ending = false) (hpoint : Limits h'.limited h'.wal h'.pc) :
    Deferral h' where
  rows := by
    intro id hid
    rcases hlim id hid with hold | ⟨row, hg, -⟩
    · exact hk.rows id (hd.rows id hold)
    · rw [hg]
      rfl
  stamped := by
    intro id hid row hg hs
    rcases hlim id hid with hold | ⟨row', hg', hs'⟩
    · rcases hk.closed id row hg hs with hg | hdef | ⟨hnot, -⟩
      · refine .inl ((hd.stamped id hold row hg hs).resolve_right ?_)
        rintro ⟨p, hpc⟩
        exact hno p id hpc
      · exact .inr hdef
      · exact absurd hid hnot
    · rw [hg] at hg'
      cases hg'
      rw [hs] at hs'
      cases hs'
  settled := by
    intro hrun id row hg horigin hs he
    rcases hk.closed id row hg hs with hg | hdef | ⟨-, hfine⟩
    · refine .inl ((hd.settled (hloop hrun) id row hg horigin hs he).resolve_right ?_)
      rintro ⟨p, hpc⟩
      exact hno p id hpc
    · exact .inr hdef
    · exact absurd he (hfine hrun horigin)
  point := hpoint
  told := by
    intro kind id hmem
    rcases hev kind id hmem with hold | hnew
    · obtain ⟨hnot, row, hg, hs⟩ := hd.told kind id hold
      have hg' := hk.kept id row hg hs
      refine ⟨fun hid => ?_, row, hg', hs⟩
      rcases hlim id hid with hid | ⟨row', hg'', hs'⟩
      · exact hnot hid
      · rw [hg'] at hg''
        cases hg''
        rw [hs] at hs'
        cases hs'
    · exact hnew

namespace Host

variable {h h' : Host} {e : Env}

/-- A move that leaves the rows of model calls and the log of failures alone. -/
theorem deferral_frame (hd : Deferral h) (hno : ∀ p id, h.pc ≠ .deferring p id)
    (hw : h'.wal.llms = h.wal.llms) (hlim : h'.limited = h.limited)
    (hev : ∀ kind id, .failed kind (some id) ∈ h'.events → .failed kind (some id) ∈ h.events)
    (hloop : h'.pc.ending = false → h.pc.ending = false) (hpoint : Limits h'.limited h'.wal h'.pc) :
    Deferral h' :=
  hd.move hno (.of_llms hw) (fun _ hid => .inl (hlim ▸ hid)) (fun kind id hmem => .inl (hev kind id hmem)) hloop
    hpoint

theorem deferral_called {q q' : LlmPoint} {w' : Wal} {spent' : ℚ} (hd : Deferral h)
    (pc : h.pc = .model p next q) (m : LlmMove .agentTurn h.wal h.spent q w' spent' (.inl q')) :
    Deferral { h with wal := w', spent := spent', limited := h.limited ++ q'.limited, pc := .model p next q' } := by
  have hpoint : q.Limits h.limited h.wal := by
    have hp := hd.point
    rw [pc] at hp
    exact hp
  have hno : ∀ p' id, h.pc ≠ .deferring p' id := by
    intro p' id
    rw [pc]
    exact Pc.noConfusion
  have hk := m.keepsRows_inl
  -- what is left to say: which calls are new among the limited, and what the call is now
  have hput : (∀ id ∈ q'.limited, ∃ row, w'.llms.get? id = some row ∧ row.status = .intent) →
      q'.Limits (h.limited ++ q'.limited) w' →
        Deferral { h with
          wal := w', spent := spent', limited := h.limited ++ q'.limited, pc := .model p next q' } := fun hnew hq' =>
    hd.move hno (hk.mono fun _ _ hf => hf.elim)
      (fun id hid => (List.mem_append.mp hid).imp_right (hnew id)) (fun _ _ hmem => .inl hmem)
      (fun _ => pc ▸ rfl) hq'
  cases m with
  | opened id hw free hrow =>
    refine hput (fun k hk => by cases hk) ⟨?_, _, hrow, rfl⟩
    intro hid
    have hsome := hd.rows id (by simpa [LlmPoint.limited] using hid)
    rw [free] at hsome
    cases hsome
  | answered id r cost =>
    refine hput (fun k hk => by cases hk) ?_
    show id ∉ h.limited ++ []
    rw [List.append_nil]
    exact hpoint.1
  | blank id cost =>
    refine hput (fun k hk => by cases hk) ?_
    intro hid
    exact absurd (by simpa [LlmPoint.limited, emptyResponseError] using hid) hpoint.1
  | failed id err =>
    obtain ⟨hnot, row, hg, hs⟩ := hpoint
    cases err with
    | rateLimited text =>
      refine hput ?_ fun _ => ⟨text, rfl⟩
      intro k hk
      rw [List.mem_singleton.mp hk]
      exact ⟨row, hg, hs⟩
    | other text =>
      refine hput (fun k hk => by cases hk) ?_
      intro hid
      exact absurd (by simpa [LlmPoint.limited] using hid) hnot
  | charged id r cost hw hb hs ha =>
    refine hput (fun k hk => by cases hk) ?_
    show id ∉ h.limited ++ []
    rw [List.append_nil]
    exact hpoint
  | marked id err cost hw hb hs ha =>
    refine hput (fun k hk => by cases hk) ?_
    intro hid
    exact hpoint (by simpa [LlmPoint.limited] using hid)

theorem LlmMove.apart {limited : List Nat} {q' : LlmPoint}
    (m : LlmMove origin w spent q w' spent' (.inl q')) (hq : q.Apart limited)
    (hrows : ∀ id ∈ limited, (w.llms.get? id).isSome = true) : q'.Apart limited := by
  cases m with
  | opened id hw free hrow =>
    intro hid
    have hsome := hrows id hid
    rw [free] at hsome
    cases hsome
  | answered | blank | failed | charged | marked => exact hq

/-- The stamp: the row put down is the only one that changes, and it has its
stamp now. -/
theorem deferral_stamped {w' : Wal} {id : Nat} (hd : Deferral h) (pc : h.pc = .deferring p id)
    (stamp : h.wal.markLlmDeferred id e.now = some w') : Deferral ((h.store w').goto (.stamped p)) := by
  obtain ⟨hw, row, hb, hs, he, ha⟩ := markLlmDeferred_spec stamp
  have hother : ∀ {k : Nat}, k ≠ id → ¬ ∃ p', h.pc = .deferring p' k := by
    rintro k hne ⟨p', hpc⟩
    rw [pc] at hpc
    cases hpc
    exact hne rfl
  have hold : ∀ {k : Nat}, k ≠ id → w'.llms.get? k = h.wal.llms.get? k :=
    fun hne => Table.get?_of_erase hw.llms hne
  have hstamp : ∀ {row'}, w'.llms.get? id = some row' → row'.deferredAt.isSome = true := by
    intro row' hg
    rw [ha] at hg
    cases hg
    rfl
  refine ⟨?_, ?_, ?_, trivial, ?_⟩
  · intro k hk
    show (w'.llms.get? k).isSome = true
    by_cases hkk : k = id
    · rw [hkk, ha]
      rfl
    · rw [hold hkk]
      exact hd.rows k hk
  · intro k hk row' hg hs'
    by_cases hkk : k = id
    · exact .inl (hstamp (hkk ▸ hg))
    · exact .inl ((hd.stamped k hk row' ((hold hkk).symm.trans hg) hs').resolve_right (hother hkk))
  · intro _ k row' hg horigin hs' he'
    by_cases hkk : k = id
    · exact .inl (hstamp (hkk ▸ hg))
    · have hset := hd.settled (pc ▸ rfl) k row' ((hold hkk).symm.trans hg) horigin hs' he'
      exact .inl (hset.resolve_right (hother hkk))
  · intro kind k hmem
    obtain ⟨hnot, row', hg, hs'⟩ := hd.told kind k hmem
    refine ⟨hnot, ?_⟩
    by_cases hkk : k = id
    · cases hkk
      exact ⟨_, ha, hs⟩
    · exact ⟨row', (hold hkk).trans hg, hs'⟩

/-- A tool call goes on; the calls of servers are none of the agent's turns. -/
theorem deferral_tool {done : List ToolCallResult} {req : ToolCallRequest} {rest : List ToolCallRequest}
    {q q' : ToolPoint} {w' : Wal} {spent' : ℚ} {executed : Option ToolCallResult} {executions : List Execution}
    (hd : Deferral h) (pc : h.pc = .tools p next done req rest q)
    (m : ToolStep cfg req h.wal h.spent q w' spent' executed (.goes q')) :
    Deferral { h with wal := w', spent := spent', executions := executions, pc := .tools p next done req rest q' } := by
  have hno : ∀ p' id, h.pc ≠ .deferring p' id := by simp [pc]
  have hframe : w'.llms = h.wal.llms → Limits h.limited w' (.tools p next done req rest q') →
      Deferral { h with
        wal := w', spent := spent', executions := executions, pc := .tools p next done req rest q' } :=
    fun hl hpoint => deferral_frame hd hno hl rfl (fun _ _ hmem => hmem) (fun _ => pc ▸ rfl) hpoint
  cases m with
  | admitted =>
    refine hframe rfl ?_
    unfold ToolPoint.step.afterPermission
    split <;> trivial
  | opened hopens hw _ =>
    refine hframe hw.llms ?_
    cases hopens <;> trivial
  | reopened hw _ => exact hframe hw.llms trivial
  | dispatched _ hdisp hw _ _ _ =>
    refine hframe hw.llms ?_
    cases hdisp <;> trivial
  | closed _ hcloses hw _ _ _ =>
    refine hframe hw.llms ?_
    cases hcloses <;> trivial
  | ran => exact hframe rfl trivial
  | serves => exact hframe rfl ⟨trivial, trivial⟩
  | serving m =>
    have hpoint := hd.point
    rw [pc] at hpoint
    refine hd.move hno (m.keepsRows_inl.mono fun _ _ hf => hf.elim) (fun _ hid => .inl hid)
      (fun _ _ hmem => .inl hmem) (fun _ => pc ▸ rfl) ⟨LlmMove.apart m hpoint.1 hd.rows, m.owns hpoint.2⟩
  | @served origin q o w' spent' m =>
    have hpoint := hd.point
    rw [pc] at hpoint
    obtain ⟨hapart, hown⟩ := hpoint
    refine hd.move hno (m.keepsRows.mono ?_) (fun _ hid => .inl hid) (fun _ _ hmem => .inl hmem)
      (fun _ => pc ▸ rfl) trivial
    have hserver : origin.origin ≠ .agentTurn := by cases origin <;> exact LlmCallOrigin.noConfusion
    rintro id row ⟨⟨old, hg, horigin⟩, ⟨r, cost, rfl, -⟩ | ⟨err, cost, rfl, -⟩⟩
    · exact .inr ⟨hapart, fun _ hagent => absurd ((hown old hg).symm.trans (horigin.symm.trans hagent)) hserver⟩
    · exact .inr ⟨hapart, fun _ hagent => absurd ((hown old hg).symm.trans (horigin.symm.trans hagent)) hserver⟩

theorem deferral_move (m : Move cfg e h h') (hd : Deferral h) : Deferral h' := by
  have hat : ∀ pc, h.pc = pc → Limits h.limited h.wal pc := fun pc hpc => hpc ▸ hd.point
  cases m with
  | overrun p carried pc | drained p carried pc | suspended p carried pc | rejected p carried pc
  | overspent p next r pc | advanced p next r pc _ =>
    exact deferral_frame hd (by simp [pc]) rfl rfl (fun _ _ hmem => hmem) (fun _ => pc ▸ rfl) trivial
  | noticed p carried n pending pc _ _ insert =>
    rw [insertHostNotice_spec insert]
    exact deferral_frame hd (by simp [pc]) rfl rfl (fun _ _ hmem => hmem) (fun _ => pc ▸ rfl) trivial
  | reduced p carried out pc step performs =>
    refine deferral_frame hd (by simp [pc]) (upsertInvocationState_spec _ _).llms rfl (fun _ _ hmem => hmem)
      (fun _ => pc ▸ rfl) ?_
    cases performs with
    | completed | failed | exhausted | model | tools => trivial
  | called p next pc m => exact deferral_called hd pc m
  | replied p next r pc m =>
    have hpoint := hat _ pc
    refine hd.move (by simp [pc]) (m.keepsRows.mono ?_) (fun _ hid => .inl hid) (fun _ _ hmem => .inl hmem)
      (fun _ => pc ▸ rfl) trivial
    rintro id row ⟨-, ⟨r, cost, rfl, herr⟩ | ⟨err, cost, -, ho⟩⟩
    · refine .inr ⟨hpoint, fun _ _ => ?_⟩
      rw [herr]
      simp
    · cases ho
  | refused p next pc m =>
    cases m with
    | refused =>
      exact deferral_frame hd (by simp [pc]) rfl rfl (fun _ _ hmem => hmem) (fun hrun => by cases hrun) trivial
  | rateLimited p next id text pc m =>
    have hk := m.keepsRows
    cases m with
    | closedError id err cost now hw hb hs ha =>
      refine hd.move (by simp [pc]) (hk.mono ?_) (fun _ hid => .inl hid) (fun _ _ hmem => .inl hmem)
        (fun _ => pc ▸ rfl) ⟨_, ha, rfl, rfl⟩
      rintro k row ⟨-, ⟨r, cost', hq, -⟩ | ⟨err, cost', hq, -⟩⟩
      · cases hq
      · cases hq
        exact .inl ⟨p, rfl⟩
  | broken p next id text pc m =>
    have hk := m.keepsRows
    have hpoint := hat _ pc
    cases m with
    | closedError id err cost now hw hb hs ha =>
      have hnot : id ∉ h.limited := by
        intro hid
        obtain ⟨t, ht⟩ := hpoint hid
        cases ht
      refine hd.move (by simp [pc]) (hk.mono ?_) (fun _ hid => .inl hid) (fun _ _ hmem => .inl hmem)
        (fun hrun => by cases hrun) ⟨hnot, _, ha, rfl⟩
      rintro k row ⟨-, ⟨r, cost', hq, -⟩ | ⟨err, cost', hq, -⟩⟩
      · cases hq
      · cases hq
        exact .inr ⟨hnot, fun hrun => by cases hrun⟩
  | stamped p id pc stamp => exact deferral_stamped hd pc stamp
  | unstamped p id pc stamp =>
    -- the row is there and closed as an error, so the stamp does not fail
    obtain ⟨row, hg, hs, he⟩ := hat _ pc
    unfold markLlmDeferred at stamp
    rw [if_pos (by simp [hg, hs, he])] at stamp
    cases stamp
  | putDown p pc =>
    exact deferral_frame hd (by simp [pc]) (markDeferred_spec _).llms rfl (fun _ _ hmem => hmem)
      (fun _ => pc ▸ rfl) trivial
  | announced p pc =>
    exact deferral_frame hd (by simp [pc]) rfl rfl (fun _ _ hmem => mem_of_emit hmem Event.noConfusion)
      (fun hrun => by cases hrun) trivial
  | toolWent p next done req rest pc m => exact deferral_tool hd pc m
  | toolAborted p next done req rest r pc m =>
    cases m with
    | streak =>
      exact deferral_frame hd (by simp [pc]) rfl rfl (fun _ _ hmem => hmem) (fun hrun => by cases hrun) trivial
  | toolAnswered p next done req req' rest r pc m =>
    cases m with
    | recorded | judged =>
      exact deferral_frame hd (by simp [pc]) rfl rfl (fun _ _ hmem => hmem) (fun _ => pc ▸ rfl) trivial
  | roundDone p next done req r pc m =>
    cases m with
    | recorded | judged =>
      exact deferral_frame hd (by simp [pc]) rfl rfl (fun _ _ hmem => hmem) (fun _ => pc ▸ rfl) trivial
  | lost running other =>
    exact deferral_frame hd other rfl rfl (fun _ _ hmem => hmem) (fun hrun => by cases hrun) trivial
  | failed p kind call pc =>
    have hpoint := hat _ pc
    have hblamed : ∀ id, call = some id → id ∉ h.limited ∧ h.wal.LlmClosed id := by
      rintro id rfl
      exact hpoint
    refine hd.move (by simp [pc]) (.of_llms rfl) (fun _ hid => .inl hid) ?_ (fun hrun => by cases hrun) ?_
    · intro kind' id hmem
      rcases List.mem_append.mp hmem with hold | hnew
      · exact .inl hold
      · cases List.mem_singleton.mp hnew
        exact .inr (hblamed id rfl)
    · cases call with
      | none => trivial
      | some id => exact hblamed id rfl
  | ended p kind call pc =>
    exact deferral_frame hd (by simp [pc]) (ensureTerminal_spec _ _ _).llms rfl (fun _ _ hmem => hmem)
      (fun hrun => by cases hrun) trivial
  | completed pc =>
    exact deferral_frame hd (by simp [pc]) rfl rfl (fun _ _ hmem => mem_of_emit hmem Event.noConfusion)
      (fun hrun => by cases hrun) trivial
  | archived o pc _ =>
    exact deferral_frame hd (by simp [pc]) rfl rfl (fun _ _ hmem => mem_of_emit hmem Event.noConfusion)
      (fun hrun => by cases hrun) trivial
  | kept o pc _ =>
    exact deferral_frame hd (by simp [pc]) rfl rfl (fun _ _ hmem => hmem) (fun hrun => by cases hrun) trivial
  | handedOff o pc =>
    exact deferral_frame hd (by simp [pc]) rfl rfl (fun _ _ hmem => hmem) (fun hrun => by cases hrun) trivial
  | idle => exact hd

/-- The rows a lost failure is read off. -/
theorem lostFailure_inv {rows : List (Nat × LlmRow)} {id : Nat} {message : String}
    (hc : collectTurns rows = .ok (.lostFailure id message)) :
    ∃ row, (id, row) ∈ rows ∧ row.status = .completed ∧ row.deferredAt.isSome = false := by
  induction rows with
  | nil => cases hc
  | cons r rest ih =>
    obtain ⟨k, r⟩ := r
    rw [collectTurns] at hc
    have hrest : collectTurns rest = .ok (.lostFailure id message) →
        ∃ row, (id, row) ∈ (k, r) :: rest ∧ row.status = .completed ∧ row.deferredAt.isSome = false := by
      intro hlost
      obtain ⟨row, hmem, hrow⟩ := ih hlost
      exact ⟨row, List.mem_cons_of_mem _ hmem, hrow⟩
    split at hc
    · exact hrest hc
    · next hturn =>
      split at hc
      · split at hc
        · exact hrest hc
        · next hd =>
          cases hc
          exact ⟨r, List.mem_cons_self, by simpa using (not_or.mp hturn).2, by simpa using hd⟩
      · split at hc
        · split at hc
          · cases hc
          · exact hrest hc
        · cases hc

theorem resume_lostFailure {id : Nat} {message : String} (hres : w.resume cfg = .ok (.lostFailure id message)) :
    ∃ row, w.llms.get? id = some row ∧ row.status = .completed ∧ row.deferredAt.isSome = false := by
  unfold Wal.resume at hres
  split at hres
  · cases hres
  · split at hres
    · cases hres
    · split at hres
      · cases hres
      · split at hres
        · cases hres
        · next hlost =>
          cases hres
          obtain ⟨row, hmem, hrow⟩ := lostFailure_inv hlost
          exact ⟨row, Table.mem_rows.mp hmem, hrow⟩
        · dsimp only at hres
          split at hres <;> cases hres

theorem deferral_resumes (m : Resumes cfg h h') (hd : Deferral h) : Deferral h' := by
  cases m with
  | refused => exact hd
  | failure o id message pc hres =>
    obtain ⟨row, hg, hs, hun⟩ := resume_lostFailure hres
    have hnot : id ∉ h.limited := by
      intro hid
      rcases hd.stamped id hid row hg hs with hst | ⟨p, hdef⟩
      · rw [hun] at hst
        cases hst
      · rw [pc] at hdef
        cases hdef
    exact deferral_frame hd (by simp [pc]) rfl rfl (fun _ _ hmem => hmem) (fun hrun => by cases hrun)
      ⟨hnot, row, hg, hs⟩
  | overspent o p pc hres =>
    exact deferral_frame hd (by simp [pc]) rfl rfl (fun _ _ hmem => hmem) (fun hrun => by cases hrun) trivial
  | entered o p pc hres within =>
    obtain ⟨-, -, -, -, hlost⟩ := resume_inv hres
    refine ⟨hd.rows, ?_, ?_, trivial, hd.told⟩
    · intro id hid row hg hs
      refine .inl ((hd.stamped id hid row hg hs).resolve_right ?_)
      rintro ⟨p', hdef⟩
      rw [pc] at hdef
      cases hdef
    · intro _ id row hg horigin hs he
      exact .inl (hlost (id, row) (Table.mem_rows.mpr hg) horigin hs he)

end Host

def Pc.isDeferring : Pc → Bool
  | .deferring _ _ => true
  | _ => false

theorem Pc.ne_deferring {pc : Pc} (h : pc.isDeferring = false) (p : Point) (id : Nat) : pc ≠ .deferring p id := by
  rintro rfl
  cases h

/-- The process does not stop between the close of a rate-limited call's row and
its stamp. -/
def Spares (h : Host) : Action → Prop
  | .crash => h.pc.isDeferring = false
  | _ => True

instance : ∀ (h : Host) (a : Action), Decidable (Spares h a)
  | h, .crash => inferInstanceAs (Decidable (h.pc.isDeferring = false))
  | _, .step _ | _, .resume | _, .inject _ => .isTrue trivial

namespace Host

variable {h h' : Host} {e : Env}

theorem deferral_act {a : Action} (hok : Spares h a) (hd : Deferral h) : Deferral (h.act cfg a) := by
  cases a with
  | step e => exact deferral_move step_move hd
  | crash => exact deferral_frame hd (Pc.ne_deferring hok) rfl rfl (fun _ _ hmem => hmem) (fun hrun => by cases hrun) trivial
  | resume => exact deferral_resumes resume_resumes hd
  | inject render =>
    dsimp only [act]
    rcases inject_cases (h := h) render with heq | ⟨o, pc, heq⟩
    · rw [heq]
      exact hd
    · rw [heq]
      refine deferral_frame hd (by simp [pc]) (injectInterruptedResults_spec _ _).1 rfl (fun _ _ hmem => hmem)
        (fun hrun => hrun) ?_
      show Limits h.limited _ h.pc
      rw [pc]
      trivial

theorem deferral_init : Deferral Host.init where
  rows := by
    intro id hid
    cases hid
  stamped := by
    intro id hid
    cases hid
  settled := by
    intro _ id row hg
    cases hg
  point := trivial
  told := by
    intro kind id hmem
    cases hmem

end Host

/-! ## The step of the call -/

/-- The step at `p` asks for the model, whatever notices it is given. -/
def HostConfig.Asks (cfg : HostConfig) (p : Point) : Prop :=
  ∀ notices, ∃ out, Reducer.step (cfg.stepInput p notices) = .ok out ∧ out.Asks

theorem HostConfig.Asks.recorded (h : cfg.Asks p) : cfg.Asks p.recorded := by
  intro notices
  obtain ⟨out, hstep, hask⟩ := h notices
  exact ⟨out, step_recorded hstep, hask⟩

/-- The row says that the invocation is put down. -/
def Wal.Deferred (w : Wal) : Prop := ∃ row, w.state = some row ∧ row.phase = .deferred

/-- From the call of a turn until the invocation is put down, its step is one that
asks for the model, and there is a row. -/
def Waits (cfg : HostConfig) (w : Wal) : Pc → Prop
  | .model p _ _ | .deferring p _ | .stamped p => cfg.Asks p ∧ w.state.isSome = true
  | .announcing p => cfg.Asks p ∧ w.Deferred
  | .finished .deferred => w.Deferred
  | .handingOff o _ => o ≠ .deferred
  | _ => True

theorem Waits.finished {o : Outcome} (ho : o ≠ .deferred) : Waits cfg w (.finished o) := by
  cases o with
  | deferred => exact absurd rfl ho
  | completed | failed | suspended | crashed => trivial

namespace Host

variable {h h' : Host} {e : Env}

theorem waits_move (m : Move cfg e h h') (hx : Ending h.wal h.pc) (hw : Waits cfg h.wal h.pc) :
    Waits cfg h'.wal h'.pc := by
  have hat : ∀ pc, h.pc = pc → Waits cfg h.wal pc := fun pc hpc => hpc ▸ hw
  cases m with
  | reduced p carried out pc step performs =>
    cases performs with
    | completed | failed | exhausted | tools => trivial
    | model q action phase noCalls below =>
      refine ⟨step_notices step ⟨q, action⟩, ?_⟩
      obtain ⟨pending, hrow⟩ := upsert_of_open (hx.open_row (pc ▸ rfl)) (rowOf p out e.now)
      show (h.wal.upsertInvocationState (rowOf p out e.now)).state.isSome = true
      rw [hrow]
      rfl
  | called p next pc m =>
    obtain ⟨hask, hrow⟩ := hat _ pc
    exact ⟨hask, m.state ▸ hrow⟩
  | rateLimited p next id text pc m =>
    obtain ⟨hask, hrow⟩ := hat _ pc
    exact ⟨hask, m.state ▸ hrow⟩
  | stamped p id pc stamp =>
    obtain ⟨hask, hrow⟩ := hat _ pc
    exact ⟨hask, (markLlmDeferred_spec stamp).1.state ▸ hrow⟩
  | putDown p pc =>
    obtain ⟨hask, hrow⟩ := hat _ pc
    refine ⟨hask, ?_⟩
    rcases markDeferred_state (hx.open_row (pc ▸ rfl)) with hnone | ⟨row, hr, hd, -⟩
    · exfalso
      obtain ⟨row, hr⟩ := Option.isSome_iff_exists.mp hrow
      unfold markDeferred upsertInvocationState at hnone
      simp only [hr] at hnone
      split at hnone
      · rw [hr] at hnone
        cases hnone
      · cases hnone
    · exact ⟨row, hr, hd⟩
  | announced p pc => exact (hat _ pc).2
  | ended | completed => exact Outcome.noConfusion
  | archived o pc _ =>
    have ho := hat _ pc
    exact ho
  | kept o pc _ | handedOff o pc => exact Waits.finished (hat _ pc)
  | idle => exact hw
  | overrun | drained | noticed | suspended | rejected | replied | refused | broken | overspent | advanced | unstamped
  | toolWent | toolAborted | toolAnswered | roundDone | lost | failed =>
    trivial

theorem waits_act {a : Action} (hx : Ending h.wal h.pc) (hw : Waits cfg h.wal h.pc) :
    Waits cfg (h.act cfg a).wal (h.act cfg a).pc := by
  cases a with
  | step e => exact waits_move step_move hx hw
  | crash => trivial
  | resume =>
    have hres : ∀ {h'}, Resumes cfg h h' → Waits cfg h'.wal h'.pc := by
      intro h' m
      cases m with
      | refused => exact hw
      | failure | overspent | entered => trivial
    exact hres resume_resumes
  | inject render =>
    dsimp only [act]
    rcases inject_cases (h := h) render with heq | ⟨o, pc, heq⟩
    · rw [heq]
      exact hw
    · rw [heq]
      rw [pc] at hw
      show Waits cfg (h.wal.injectInterruptedResults render) h.pc
      rw [pc]
      cases o with
      | deferred =>
        obtain ⟨row, hr, hd⟩ := hw
        exact ⟨row, (injectInterruptedResults_spec _ _).2.trans hr, hd⟩
      | completed | failed | suspended | crashed => trivial

/-- Everything that is known of a run in which no deferral is cut off. -/
structure Deferring (cfg : HostConfig) (h : Host) : Prop where
  budgeted : Budgeted cfg h
  deferral : Deferral h
  waits : Waits cfg h.wal h.pc

theorem deferring_run {schedule : List Action}
    (hp : Permitted (Host.act cfg) Spares Host.init schedule) : Deferring cfg (Host.init.run cfg schedule) := by
  have hstep : ∀ h a, Spares h a → Deferring cfg h → Deferring cfg (Host.act cfg h a) := fun h a hok hd =>
    ⟨budgeted_act hd.budgeted, deferral_act hok hd.deferral, waits_act hd.budgeted.ending hd.waits⟩
  exact Permitted.inv hstep hp ⟨budgeted_init, deferral_init, trivial⟩

end Host

/-- The point of a turn that came back rate limited, until it is put down. -/
def Pc.putsDown : Pc → Option Point
  | .model p _ (.failed _ (.rateLimited _) _) | .model p _ (.closingError _ (.rateLimited _) _) => some p
  | .deferring p _ | .stamped p | .announcing p => some p
  | _ => none

namespace Host

variable {h : Host}

/-- Wherever a rate-limited turn is on its way to be put down. -/
theorem Deferring.putsDown (hd : Deferring cfg h) (hp : h.pc.putsDown = some p) :
    h.pc.ending = false ∧ h.pc.position cfg = some p ∧ cfg.Asks p ∧ h.wal.state.isSome = true ∧
      cfg.Below h.wal.totalCost := by
  have hw := hd.waits
  have hb := hd.budgeted.accounts
  have hdeferred : h.wal.Deferred → h.wal.state.isSome = true := by
    rintro ⟨row, hr, -⟩
    rw [hr]
    rfl
  unfold Pc.putsDown at hp
  split at hp
  · next hpc =>
    cases hp
    rw [hpc] at hw hb ⊢
    exact ⟨rfl, rfl, hw.1, hw.2, hb.2.1⟩
  · next hpc =>
    cases hp
    rw [hpc] at hw hb ⊢
    exact ⟨rfl, rfl, hw.1, hw.2, hb.2.1⟩
  · next hpc =>
    cases hp
    rw [hpc] at hw hb ⊢
    exact ⟨rfl, rfl, hw.1, hw.2, hb⟩
  · next hpc =>
    cases hp
    rw [hpc] at hw hb ⊢
    exact ⟨rfl, rfl, hw.1, hw.2, hb⟩
  · next hpc =>
    cases hp
    rw [hpc] at hw hb ⊢
    exact ⟨rfl, rfl, hw.1, hdeferred hw.2, hb⟩
  · cases hp

/-- Stopped there, outside the window before the stamp, the invocation is picked
up at the step of the call. -/
theorem Deferring.resume (hd : Deferring cfg h) (hs : Standing cfg h) (hp : h.pc.putsDown = some p)
    (hok : Spares h .crash) (hamb : h.wal.isAmbiguous = false) :
    (h.crash.resume cfg).pc = .boundary p.recorded (h.wal.noticesAt p.stepIndex) ∧
      (h.crash.resume cfg).spent = h.wal.totalCost := by
  obtain ⟨hrun, hpos, -, hrow, hbelow⟩ := hd.putsDown hp
  obtain ⟨row, hr⟩ := Option.isSome_iff_exists.mp hrow
  have hopen : row.terminalAt = none := by
    cases hterm : row.terminalAt with
    | none => rfl
    | some t => exact absurd ⟨row, hr, by rw [hterm]; rfl⟩ (hd.budgeted.ending.open_row hrun)
  have hlost : h.wal.NoLostFailure := by
    intro r hmem horigin hst he
    refine (hd.deferral.settled hrun r.1 r.2 (Table.mem_rows.mp hmem) horigin hst he).resolve_right ?_
    rintro ⟨p', hdef⟩
    exact Pc.ne_deferring hok p' r.1 hdef
  obtain ⟨rounds, hf⟩ := hs.position hpos
  have hres : h.wal.resume cfg = .ok (.resumesAt p.recorded) := hf.resume hr hopen hamb hlost
  have hwithin : ¬ (cfg.budget.any fun b => b < h.wal.totalCost) = true := by
    rw [Option.any_eq_true]
    rintro ⟨b, hb, hlt⟩
    exact absurd (hbelow b hb) (not_lt_of_gt (by simpa using hlt))
  have hreenter : h.crash.resume cfg = h.crash.reenter cfg p.recorded := resume_of_resumesAt rfl hres
  rw [hreenter]
  unfold reenter
  dsimp only
  rw [if_neg (show ¬ (cfg.budget.any fun b => b < h.crash.wal.totalCost) = true from hwithin)]
  exact ⟨rfl, rfl⟩

end Host

/-- A deferral is never a failure.  In every run in which the process never stops
between the close of a rate-limited call's row and its stamp: no failure is told
on account of a call that came back rate limited; an invocation that was put down
has a row that says so; and wherever else the process stops on the way there, with
no row in the window and the ids distinct, the next incarnation picks the
invocation up at the step of the call, below its budget, and that step asks for
the model whatever notices it is given. -/
theorem deferral_is_no_failure (cfg : HostConfig) (schedule : List Action)
    (hp : Permitted (Host.act cfg) Spares Host.init schedule) :
    (∀ kind id, .failed kind (some id) ∈ (Host.init.run cfg schedule).events →
      id ∉ (Host.init.run cfg schedule).limited) ∧
    ((Host.init.run cfg schedule).pc = .finished .deferred → (Host.init.run cfg schedule).wal.Deferred) ∧
    ((Host.init.run cfg schedule).wal.requestedIds.Nodup →
      ∀ p, (Host.init.run cfg schedule).pc.putsDown = some p → Spares (Host.init.run cfg schedule) .crash →
        (Host.init.run cfg schedule).wal.isAmbiguous = false →
        (∃ carried, ((Host.init.run cfg schedule).crash.resume cfg).pc = .boundary p.recorded carried) ∧
          (∀ b, cfg.budget = some b → ((Host.init.run cfg schedule).crash.resume cfg).spent < b) ∧
          ∀ notices, ∃ out q, Reducer.step (cfg.stepInput p.recorded notices) = .ok out ∧
            out.nextAction = .callModel q) := by
  have hd := Host.deferring_run hp
  refine ⟨fun kind id hmem => (hd.deferral.told kind id hmem).1, ?_, ?_⟩
  · intro hpc
    have hw := hd.waits
    rw [hpc] at hw
    exact hw
  · intro hnd p hdown hok hamb
    obtain ⟨hpc, hspent⟩ := hd.resume (Host.standing_run Host.standing_init hnd) hdown hok hamb
    obtain ⟨-, -, hask, -, hbelow⟩ := hd.putsDown hdown
    refine ⟨⟨_, hpc⟩, ?_, ?_⟩
    · rw [hspent]
      exact hbelow
    · intro notices
      obtain ⟨out, hstep, q, hq⟩ := hask.recorded notices
      exact ⟨out, q, hstep, hq⟩

/-- A world in which every turn is rate limited. -/
def limitedEnv : Env := { sampleEnv [] with reply := .error (.rateLimited "429") }

/-- A turn that is rate limited, up to the stamp on its row. -/
def stampedTurn : Host := Host.init.run sampleConfig (List.replicate 7 (.step limitedEnv))

theorem stampedTurn_is_no_failure :
    stampedTurn.limited = [1] ∧ (∀ kind id, .failed kind (some id) ∈ stampedTurn.events → id ∉ stampedTurn.limited) ∧
      ∃ p, stampedTurn.pc.putsDown = some p ∧
        (∃ carried, (stampedTurn.crash.resume sampleConfig).pc = .boundary p.recorded carried) ∧
        ∀ notices, ∃ out q, Reducer.step (sampleConfig.stepInput p.recorded notices) = .ok out ∧
          out.nextAction = .callModel q := by
  obtain ⟨p, hp⟩ : ∃ p, stampedTurn.pc.putsDown = some p := Option.isSome_iff_exists.mp (by decide +kernel)
  obtain ⟨htold, -, hresume⟩ :=
    deferral_is_no_failure sampleConfig (List.replicate 7 (.step limitedEnv)) (by decide +kernel)
  obtain ⟨hpc, -, hasks⟩ := hresume (by decide +kernel) p hp (by decide +kernel) (by decide +kernel)
  exact ⟨by decide +kernel, htold, p, hp, hpc, hasks⟩

/-- The same turn, stopped before the stamp and picked up. -/
def cutDeferral : Host :=
  Host.init.run sampleConfig (List.replicate 6 (.step limitedEnv) ++ [.crash, .resume, .step limitedEnv])

/-- Stopped before the stamp, a rate-limited call is told as a failure. -/
theorem cut_deferral_is_failure :
    ∃ kind id, .failed kind (some id) ∈ cutDeferral.events ∧ id ∈ cutDeferral.limited :=
  ⟨.llmError, 1, by decide +kernel, by decide +kernel⟩

end FactorQ.Reducer
