/-
# `FactorQ.Grants.Model` — who may do what

Authority is event-sourced: `Granted` events confer verbs over a scope, `Revoked` events
withdraw a grant by its id.  An agent may issue grants itself, and such a grant counts
only while some earlier grant that still counts gives the agent the `Grant` verb, the
same verbs and a scope that covers.

`GrantModel` is the reference semantics.  It takes any log: ids may come in any order,
twice, or be revoked before they are granted.  Names are dotted, and all tests on them
respect the dots.
-/
import FactorQ.Lib.Table
import FactorQ.Lib.ForwardPass

namespace FactorQ.Grants

open Lib

/-! ## Scopes -/

/-- `ns` covers `name` if they are equal, or if `name` goes on after `ns` with a dot.
The source compares bytes; a dot is one byte and never part of another character. -/
def namespaceCovers (ns name : String) : Bool :=
  name = ns ||
    (ns.length < name.length && ns.toList.isPrefixOf name.toList && name.toList[ns.length]? = some '.')

inductive Scope where
  /-- exactly this name -/
  | name (name : String)
  /-- this name and every dotted descendant -/
  | nameSpace (ns : String)
deriving DecidableEq

namespace Scope

def covers : Scope → String → Bool
  | name n, resource => n = resource
  | nameSpace ns, resource => namespaceCovers ns resource

/-- Every resource of the other scope is one of this scope. -/
def coversScope (self : Scope) : Scope → Bool
  | name n => self.covers n
  | nameSpace other =>
    match self with
    | name _ => false
    | nameSpace ns => namespaceCovers ns other

end Scope

theorem namespaceCovers_iff {ns name : String} :
    namespaceCovers ns name = true ↔ name = ns ∨ ns.toList ++ ['.'] <+: name.toList := by
  unfold namespaceCovers
  rw [Bool.or_eq_true, decide_eq_true_iff]
  refine or_congr_right ?_
  simp only [Bool.and_eq_true, decide_eq_true_iff, List.isPrefixOf_iff_prefix, and_assoc]
  have hat : ∀ rest, (ns.toList ++ rest)[ns.length]? = rest[0]? := by
    intro rest
    rw [List.getElem?_append_right (String.length_toList ▸ le_rfl), String.length_toList, Nat.sub_self]
  constructor
  · rintro ⟨-, ⟨rest, hrest⟩, hdot⟩
    rw [← hrest, hat] at hdot
    cases rest with
    | nil => cases hdot
    | cons c rest =>
      cases hdot
      exact ⟨rest, by rw [← hrest, List.append_assoc]; rfl⟩
  · rintro ⟨rest, hrest⟩
    rw [List.append_assoc] at hrest
    have hlen : name.length = ns.length + (1 + rest.length) := by
      rw [← String.length_toList, ← String.length_toList, ← hrest, List.length_append, List.length_append]
      rfl
    refine ⟨by omega, ⟨_, hrest⟩, ?_⟩
    rw [← hrest, hat]
    rfl

theorem namespaceCovers_trans {a b c : String} (hab : namespaceCovers a b = true)
    (hbc : namespaceCovers b c = true) : namespaceCovers a c = true := by
  rw [namespaceCovers_iff] at *
  rcases hab with rfl | hab
  · exact hbc
  · rcases hbc with rfl | hbc
    · exact .inr hab
    · exact .inr (hab.trans ((List.prefix_append _ _).trans hbc))

namespace Scope

theorem covers_of_coversScope {s t : Scope} {r : String} (hst : s.coversScope t = true)
    (ht : t.covers r = true) : s.covers r = true := by
  cases t with
  | name n =>
    have hn : n = r := of_decide_eq_true ht
    subst hn
    exact hst
  | nameSpace other =>
    cases s with
    | name n => cases hst
    | nameSpace ns => exact namespaceCovers_trans hst ht

theorem coversScope_trans {s t u : Scope} (hst : s.coversScope t = true) (htu : t.coversScope u = true) :
    s.coversScope u = true := by
  cases u with
  | name n => exact covers_of_coversScope hst htu
  | nameSpace root =>
    cases t with
    | name n => cases htu
    | nameSpace other =>
      cases s with
      | name n => cases hst
      | nameSpace ns => exact namespaceCovers_trans hst htu

end Scope

/-! ## Principals, verbs, grants -/

inductive Principal where
  | agent (id : String)
deriving DecidableEq

namespace Principal

def ownNamespace : Principal → String
  | agent id => "system.agents." ++ id

/-- The resource is the principal's own; no grant is needed. -/
def owns (p : Principal) (resource : String) : Bool := namespaceCovers p.ownNamespace resource

end Principal

inductive Grantor where
  /-- the owner of the store -/
  | operator
  | agent (id : String)
deriving DecidableEq

inductive Verb where
  | read
  | write
  | delete
  | list
  | grant
deriving DecidableEq

namespace Verb

/-- Every verb, in declaration order. -/
def all : List Verb := [read, write, delete, list, grant]

def asStr : Verb → String
  | read => "read"
  | write => "write"
  | delete => "delete"
  | list => "list"
  | grant => "grant"

instance : Fintype Verb := ⟨{read, write, delete, list, grant}, fun v => by cases v <;> simp⟩

end Verb

/-- A grant with `supporterVerbs` over `supporterScope` may be delegated as `verbs` over
`scope`. -/
def supports (supporterVerbs : Finset Verb) (supporterScope : Scope) (verbs : Finset Verb) (scope : Scope) : Bool :=
  Verb.grant ∈ supporterVerbs && verbs ⊆ supporterVerbs && supporterScope.coversScope scope

/-- Ids are unsigned 64-bit numbers. -/
abbrev GrantId := Fin (2 ^ 64)

instance neZeroGrantId : NeZero (2 ^ 64) := ⟨by decide⟩

structure GrantRow where
  grantor : Grantor
  grantee : Principal
  verbs : Finset Verb
  scope : Scope
deriving DecidableEq

inductive GrantEvent where
  | granted (id : GrantId) (row : GrantRow)
  | revoked (id : GrantId)
deriving DecidableEq

/-! ## The reference model -/

structure GrantModel where
  grants : Table GrantId GrantRow
  revoked : Finset GrantId

namespace GrantModel

def new : GrantModel := ⟨Table.empty, ∅⟩

/-- The first grant under an id counts; a revocation is noted whether or not the id is
known. -/
def apply (m : GrantModel) : GrantEvent → GrantModel
  | .granted id row => { m with grants := m.grants.insertNew id row }
  | .revoked id => { m with revoked := insert id m.revoked }

def replay (events : List GrantEvent) : GrantModel := events.foldl apply new

/-- A recorded grant stands, given the earlier ones that do. -/
def stands (m : GrantModel) (live : List GrantId) (id : GrantId) (grant : GrantRow) : Bool :=
  match grant.grantor with
  | .operator => true
  | .agent agent =>
    m.grants.rows.any fun r =>
      r.1 < id && r.1 ∈ live && r.2.grantee = .agent agent && supports r.2.verbs r.2.scope grant.verbs grant.scope

/-- The body of the loop over the ids. -/
def accepts (m : GrantModel) (live : List GrantId) (id : GrantId) : Bool :=
  match m.grants.get? id with
  | none => false
  | some grant => !(id ∈ m.revoked) && m.stands live id grant

/-- One pass in id order. -/
def liveIds (m : GrantModel) : List GrantId :=
  forwardPass m.accepts ((m.grants.rows.map Prod.fst).insertionSort (· ≤ ·))

def isLive (m : GrantModel) (id : GrantId) : Bool := id ∈ m.liveIds

def can (m : GrantModel) (principal : Principal) (verb : Verb) (resource : String) : Bool :=
  principal.owns resource ||
    let live := m.liveIds
    m.grants.rows.any fun r =>
      r.1 ∈ live && r.2.grantee = principal && verb ∈ r.2.verbs && r.2.scope.covers resource

/-! ## What is recorded -/

variable {m : GrantModel} {id : GrantId} {row : GrantRow}

theorem replay_concat (events : List GrantEvent) (ev : GrantEvent) :
    replay (events ++ [ev]) = (replay events).apply ev :=
  List.foldl_append

theorem mem_of_get? {events : List GrantEvent} (h : (replay events).grants.get? id = some row) :
    .granted id row ∈ events := by
  induction events using List.reverseRecOn with
  | nil => cases h
  | append_singleton events ev ih =>
    rw [replay_concat] at h
    cases ev with
    | revoked k => exact List.mem_append_left _ (ih h)
    | granted k new =>
      change ((replay events).grants.insertNew k new).get? id = some row at h
      rw [Table.get?_insertNew] at h
      split at h
      · next heq =>
        subst heq
        cases hold : (replay events).grants.get? id with
        | none =>
          rw [hold] at h
          cases h
          exact List.mem_append_right _ (List.mem_singleton_self _)
        | some old =>
          rw [hold] at h
          cases h
          exact List.mem_append_left _ (ih hold)
      · exact List.mem_append_left _ (ih h)

theorem mem_revoked {events : List GrantEvent} : id ∈ (replay events).revoked ↔ .revoked id ∈ events := by
  induction events using List.reverseRecOn with
  | nil => simp [replay, new]
  | append_singleton events ev ih =>
    rw [replay_concat, List.mem_append, List.mem_singleton, ← ih]
    cases ev with
    | granted k new => simp [apply]
    | revoked k => simp [apply, or_comm]

/-! ## What is live

The pass computes the least relation in which an unrevoked grant of the operator is live,
and an unrevoked grant of an agent is live if an earlier live grant supports it. -/

/-- An unrevoked grant of the operator. -/
def Root (m : GrantModel) (id : GrantId) : Prop :=
  ∃ row, m.grants.get? id = some row ∧ id ∉ m.revoked ∧ row.grantor = .operator

/-- The grant `j` supports the unrevoked delegation `k`. -/
def Carries (m : GrantModel) (j k : GrantId) : Prop :=
  ∃ sup row agent, m.grants.get? j = some sup ∧ m.grants.get? k = some row ∧ k ∉ m.revoked ∧
    row.grantor = .agent agent ∧ sup.grantee = .agent agent ∧
    supports sup.verbs sup.scope row.verbs row.scope = true

def Live (m : GrantModel) : GrantId → Prop := Stands m.Root m.Carries

theorem sorted_ids (m : GrantModel) :
    ((m.grants.rows.map Prod.fst).insertionSort (· ≤ ·)).Pairwise (· < ·) := by
  have hle := List.pairwise_insertionSort (· ≤ ·) (m.grants.rows.map Prod.fst)
  have hne : ((m.grants.rows.map Prod.fst).insertionSort (· ≤ ·)).Nodup :=
    (List.perm_insertionSort (· ≤ ·) _).nodup_iff.mpr m.grants.nodup
  exact (hle.and hne).imp fun h => lt_of_le_of_ne h.1 h.2

/-- One step of the pass, for a grant that is recorded. -/
theorem accepts_iff {live : List GrantId} (hrow : m.grants.get? id = some row) :
    m.accepts live id = true ↔ m.Root id ∨ ∃ j, j < id ∧ j ∈ live ∧ m.Carries j id := by
  unfold accepts
  rw [hrow]
  dsimp only
  rw [Bool.and_eq_true, Bool.not_eq_true', decide_eq_false_iff_not]
  unfold stands
  cases hgrantor : row.grantor with
  | operator =>
    constructor
    · rintro ⟨hrev, -⟩
      exact .inl ⟨row, hrow, hrev, hgrantor⟩
    · rintro (⟨row', hrow', hrev, -⟩ | ⟨j, -, -, sup, row', agent, -, hrow', hrev, hagent, -⟩)
      · exact ⟨hrev, rfl⟩
      · exact ⟨hrev, rfl⟩
  | agent agent =>
    simp only [List.any_eq_true, Bool.and_eq_true, decide_eq_true_iff]
    constructor
    · rintro ⟨hrev, ⟨j, sup⟩, hmem, ⟨⟨hlt, hlive⟩, hgrantee⟩, hsup⟩
      exact .inr ⟨j, hlt, hlive, sup, row, agent, Table.mem_rows.mp hmem, hrow, hrev, hgrantor, hgrantee, hsup⟩
    · rintro (⟨row', hrow', hrev, hop⟩ | ⟨j, hlt, hlive, sup, row', agent', hsup, hrow', hrev, hagent, hgrantee, hs⟩)
      · cases hrow.symm.trans hrow'
        cases hgrantor.symm.trans hop
      · cases hrow.symm.trans hrow'
        cases hgrantor.symm.trans hagent
        exact ⟨hrev, (j, sup), Table.mem_rows.mpr hsup, ⟨⟨hlt, hlive⟩, hgrantee⟩, hs⟩

theorem mem_liveIds : id ∈ m.liveIds ↔ m.Live id := by
  refine stands_unique (S := fun id => id ∈ m.liveIds) (fun id => ?_) id
  refine (mem_forwardPass m.sorted_ids).trans ?_
  rw [List.mem_insertionSort]
  cases hrow : m.grants.get? id with
  | none =>
    have hnot : ¬ (m.Root id ∨ ∃ j, j < id ∧ j ∈ m.liveIds ∧ m.Carries j id) := by
      rintro (⟨row, h, -⟩ | ⟨j, -, -, sup, row, agent, -, h, -⟩)
      · cases hrow.symm.trans h
      · cases hrow.symm.trans h
    exact iff_of_false (fun h => Table.get?_eq_none.mp hrow h.1) hnot
  | some row =>
    have hin : id ∈ m.grants.rows.map Prod.fst := List.mem_map_of_mem (Table.mem_rows.mpr hrow)
    refine (and_iff_right hin).trans ((accepts_iff hrow).trans (or_congr_right (exists_congr fun j => ?_)))
    refine and_congr_right fun hlt => and_congr_left fun _ => ?_
    exact List.mem_filter.trans (and_iff_left (decide_eq_true hlt))

theorem can_iff {principal : Principal} {verb : Verb} {resource : String} :
    m.can principal verb resource = true ↔
      principal.owns resource = true ∨
        ∃ id row, m.grants.get? id = some row ∧ m.Live id ∧ row.grantee = principal ∧ verb ∈ row.verbs ∧
          row.scope.covers resource = true := by
  unfold can
  rw [Bool.or_eq_true]
  refine or_congr_right ?_
  simp only [List.any_eq_true, Bool.and_eq_true, decide_eq_true_iff, Prod.exists, Table.mem_rows, mem_liveIds,
    and_assoc]

end GrantModel

end FactorQ.Grants
