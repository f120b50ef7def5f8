/-
# `FactorQ.Grants.Chain` — no authority without the operator

A live grant rests on a finite chain of grants that starts with one of the operator's.
Along the chain the ids grow, so cycles of delegations carry nothing; every link hands
on at most what it has, so each grant of the chain covers whatever the last one does.

Liveness grows with the recorded grants and shrinks with the revocations.  That one fact
(`Live.mono`) gives both halves of "granting never takes away, revoking never adds".
-/
import FactorQ.Grants.Model

namespace FactorQ.Grants

open Lib GrantModel

/-! ## The chain under a live grant -/

/-- The grants `front` lead up to the recorded grant `last`. -/
structure Path (m : GrantModel) (front : List (GrantId × GrantRow)) (last : GrantId × GrantRow) : Prop where
  recorded : ∀ g ∈ front ++ [last], m.grants.get? g.1 = some g.2 ∧ g.1 ∉ m.revoked
  first : (front ++ [last]).head?.map (fun g => g.2.grantor) = some .operator
  increasing : (front ++ [last]).Pairwise fun a b => a.1 < b.1
  linked : (front ++ [last]).IsChain fun a b => ∃ agent, a.2.grantee = .agent agent ∧ b.2.grantor = .agent agent
  delegable : ∀ g ∈ front, Verb.grant ∈ g.2.verbs
  wider : ∀ g ∈ front, g.2.scope.coversScope last.2.scope = true ∧ last.2.verbs ⊆ g.2.verbs

variable {m m' : GrantModel} {id : GrantId} {row : GrantRow}

theorem supports_iff {sv v : Finset Verb} {ss s : Scope} :
    supports sv ss v s = true ↔ Verb.grant ∈ sv ∧ v ⊆ sv ∧ ss.coversScope s = true := by
  unfold supports
  rw [Bool.and_eq_true, Bool.and_eq_true, decide_eq_true_iff, decide_eq_true_iff, and_assoc]

theorem path_of_root (hrow : m.grants.get? id = some row) (hrev : id ∉ m.revoked) (hop : row.grantor = .operator) :
    Path m [] (id, row) where
  recorded := by
    intro g hg
    cases List.mem_singleton.mp hg
    exact ⟨hrow, hrev⟩
  first := congrArg some hop
  increasing := List.pairwise_singleton _ _
  linked := List.IsChain.singleton _
  delegable := nofun
  wider := nofun

theorem Path.delegate {front : List (GrantId × GrantRow)} {sup : GrantId × GrantRow} {agent : String}
    (hp : Path m front sup) (hlt : sup.1 < id) (hrow : m.grants.get? id = some row) (hrev : id ∉ m.revoked)
    (hgrantor : row.grantor = .agent agent) (hgrantee : sup.2.grantee = .agent agent)
    (hsup : supports sup.2.verbs sup.2.scope row.verbs row.scope = true) :
    Path m (front ++ [sup]) (id, row) := by
  obtain ⟨hgrant, hverbs, hscope⟩ := supports_iff.mp hsup
  refine ⟨?_, ?_, ?_, ?_, ?_, ?_⟩
  · intro g hg
    rcases List.mem_append.mp hg with hold | hnew
    · exact hp.recorded g hold
    · cases List.mem_singleton.mp hnew
      exact ⟨hrow, hrev⟩
  · have hfirst := hp.first
    rw [List.head?_append]
    cases hh : (front ++ [sup]).head? with
    | none =>
      rw [hh] at hfirst
      cases hfirst
    | some g =>
      rw [hh] at hfirst
      exact hfirst
  · refine List.pairwise_append.mpr ⟨hp.increasing, List.pairwise_singleton _ _, ?_⟩
    intro g hg b hb
    cases List.mem_singleton.mp hb
    rcases List.mem_append.mp hg with hf | hl
    · exact ((List.pairwise_append.mp hp.increasing).2.2 g hf sup (List.mem_singleton_self _)).trans hlt
    · cases List.mem_singleton.mp hl
      exact hlt
  · refine List.isChain_append.mpr ⟨hp.linked, List.IsChain.singleton _, ?_⟩
    intro x hx y hy
    rw [List.getLast?_concat] at hx
    cases hx
    cases hy
    exact ⟨agent, hgrantee, hgrantor⟩
  · intro g hg
    rcases List.mem_append.mp hg with hf | hl
    · exact hp.delegable g hf
    · cases List.mem_singleton.mp hl
      exact hgrant
  · intro g hg
    rcases List.mem_append.mp hg with hf | hl
    · obtain ⟨hs, hv⟩ := hp.wider g hf
      exact ⟨Scope.coversScope_trans hs hscope, hverbs.trans hv⟩
    · cases List.mem_singleton.mp hl
      exact ⟨hscope, hverbs⟩

/-- Every live grant has a path from the operator: induction on why it is live. -/
theorem path_of_live (h : m.Live id) : ∀ row, m.grants.get? id = some row → ∃ front, Path m front (id, row) := by
  induction h with
  | root hroot =>
    intro row hrow
    obtain ⟨row', hrow', hrev, hop⟩ := hroot
    cases hrow.symm.trans hrow'
    exact ⟨[], path_of_root hrow hrev hop⟩
  | @carried j k hlt _ hc ih =>
    intro row hrow
    obtain ⟨sup, row', agent, hsup, hrow', hrev, hgrantor, hgrantee, hs⟩ := hc
    cases hrow.symm.trans hrow'
    obtain ⟨front, hp⟩ := ih sup hsup
    exact ⟨front ++ [(j, sup)], hp.delegate hlt hrow hrev hgrantor hgrantee hs⟩

/-! ## More grants, fewer revocations -/

theorem Live.mono (hg : ∀ k row, m.grants.get? k = some row → m'.grants.get? k = some row)
    (hr : m'.revoked ⊆ m.revoked) (h : m.Live id) : m'.Live id := by
  refine Stands.mono ?_ ?_ h
  · rintro k ⟨row, hrow, hrev, hop⟩
    exact ⟨row, hg k row hrow, fun hin => hrev (hr hin), hop⟩
  · rintro j k ⟨sup, row, agent, hsup, hrow, hrev, hrest⟩
    exact ⟨sup, row, agent, hg j sup hsup, hg k row hrow, fun hin => hrev (hr hin), hrest⟩

theorem can_mono (hg : ∀ k row, m.grants.get? k = some row → m'.grants.get? k = some row)
    (hr : m'.revoked ⊆ m.revoked) {p : Principal} {v : Verb} {r : String} (h : m.can p v r = true) :
    m'.can p v r = true := by
  rw [can_iff] at h ⊢
  rcases h with hown | ⟨k, row, hrow, hlive, hrest⟩
  · exact .inl hown
  · exact .inr ⟨k, row, hg k row hrow, Live.mono hg hr hlive, hrest⟩

theorem get?_apply_granted {k : GrantId} {old : GrantRow} (new : GrantRow) (h : m.grants.get? k = some old) :
    (m.apply (.granted id new)).grants.get? k = some old := by
  show (m.grants.insertNew id new).get? k = some old
  rw [Table.get?_insertNew]
  split
  · next heq =>
    rw [← heq, h]
    rfl
  · exact h

/-! ## Authority -/

/-- A chain of recorded, unrevoked grants from the operator to `p`, every one of which
covers `r` and contains `v`. -/
structure AuthorityChain (events : List GrantEvent) (p : Principal) (v : Verb) (r : String)
    (chain : List (GrantId × GrantRow)) : Prop where
  recorded : ∀ g ∈ chain, (replay events).grants.get? g.1 = some g.2 ∧ .granted g.1 g.2 ∈ events
  unrevoked : ∀ g ∈ chain, .revoked g.1 ∉ events
  first : chain.head?.map (fun g => g.2.grantor) = some .operator
  last : chain.getLast?.map (fun g => g.2.grantee) = some p
  increasing : chain.Pairwise fun a b => a.1 < b.1
  linked : chain.IsChain fun a b => ∃ agent, a.2.grantee = .agent agent ∧ b.2.grantor = .agent agent
  delegable : ∀ g ∈ chain.dropLast, Verb.grant ∈ g.2.verbs
  covers : ∀ g ∈ chain, g.2.scope.covers r = true
  confers : ∀ g ∈ chain, v ∈ g.2.verbs

/-- Whoever may do something outside its own scope may do it by a chain of grants that
starts with the operator.  A further grant takes nothing away, and a further revocation
adds nothing. -/
theorem authority_has_operator_root (events : List GrantEvent) (p : Principal) (v : Verb) (r : String) :
    ((replay events).can p v r = true → p.owns r = false → ∃ chain, AuthorityChain events p v r chain) ∧
      (∀ id row, (replay events).can p v r = true → (replay (events ++ [.granted id row])).can p v r = true) ∧
        ∀ id, (replay (events ++ [.revoked id])).can p v r = true → (replay events).can p v r = true := by
  refine ⟨?_, ?_, ?_⟩
  · intro hcan hown
    rcases can_iff.mp hcan with howns | ⟨id, row, hrow, hlive, hgrantee, hv, hcov⟩
    · rw [hown] at howns
      cases howns
    · obtain ⟨front, hp⟩ := path_of_live hlive row hrow
      refine ⟨front ++ [(id, row)], ?_, ?_, hp.first, ?_, hp.increasing, hp.linked, ?_, ?_, ?_⟩
      · intro g hg
        have hget := (hp.recorded g hg).1
        exact ⟨hget, mem_of_get? hget⟩
      · intro g hg
        exact mt mem_revoked.mpr (hp.recorded g hg).2
      · rw [List.getLast?_concat]
        exact congrArg some hgrantee
      · rw [List.dropLast_concat]
        exact hp.delegable
      · intro g hg
        rcases List.mem_append.mp hg with hf | hl
        · exact Scope.covers_of_coversScope (hp.wider g hf).1 hcov
        · cases List.mem_singleton.mp hl
          exact hcov
      · intro g hg
        rcases List.mem_append.mp hg with hf | hl
        · exact (hp.wider g hf).2 hv
        · cases List.mem_singleton.mp hl
          exact hv
  · intro id row hcan
    rw [replay_concat]
    exact can_mono (fun _ _ h => get?_apply_granted row h) (fun _ h => h) hcan
  · intro id hcan
    rw [replay_concat] at hcan
    have hgrows : (replay events).revoked ⊆ ((replay events).apply (.revoked id)).revoked := fun _ h =>
      Finset.mem_insert_of_mem h
    have hsame : ∀ k row, ((replay events).apply (.revoked id)).grants.get? k = some row →
        (replay events).grants.get? k = some row := fun _ _ h => h
    exact can_mono hsame hgrows hcan

/-- The operator lets `alice` delegate reading, and `alice` lets `bob` read. -/
def delegatedLog : List GrantEvent :=
  [.granted 1 ⟨.operator, .agent "alice", {.read, .grant}, .nameSpace "research"⟩,
    .granted 2 ⟨.agent "alice", .agent "bob", {.read}, .name "research.papers"⟩]

theorem delegated_read_has_operator_root :
    ∃ chain, AuthorityChain delegatedLog (.agent "bob") .read "research.papers" chain :=
  (authority_has_operator_root delegatedLog (.agent "bob") .read "research.papers").1 (by decide +kernel)
    (by decide +kernel)

example : (replay (delegatedLog ++ [.revoked 1])).can (.agent "bob") .read "research.papers" = false := by
  decide +kernel

end FactorQ.Grants
