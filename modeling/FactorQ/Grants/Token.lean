/-
# `FactorQ.Grants.Token` — attenuation never widens

A token carries a snapshot of its principal's grants as facts, one for each verb of each
grant, and a check that it has not expired.  Whoever holds it may append a block of
checks.  What a token authorizes is decided by evaluating all that as Datalog; the texts
of the source stand beside the queries they are.

The theorem reads the Datalog back as scopes: a token authorizes a request exactly if
some grant it was minted from covers the request, and so does every scope it was
narrowed to.  Signatures and encodings are not modelled: a token here is the list of its
blocks, as the verified one is.
-/
import FactorQ.Lib.Datalog
import FactorQ.Grants.Log

namespace FactorQ.Grants

open Lib.Datalog GrantLog

/-! ## Terms -/

def ScopeKind.asStr : ScopeKind → String
  | name => "name"
  | nameSpace => "namespace"

def verbTerm (verb : Verb) : Value := .str verb.asStr

/-- Whole seconds since the epoch; a time before it counts as the epoch.  Times are in
nanoseconds. -/
def dateTerm (time : Int) : Value := .date (time / 1000000000).toNat

def text (t : String) : Term := .val (.str t)

/-! ## Minting -/

/-- `check if time($t), $t <= {expiry}` -/
def expiryCheck (expiry : Int) : Query :=
  ⟨[⟨"time", [.var "t"]⟩], [.bin .le (.term (.var "t")) (.term (.val (dateTerm expiry)))]⟩

/-- `right({verb}, {kind}, {value})`, for every verb of the grant. -/
def rights (grant : LiveGrant) : List Fact :=
  (Verb.all.filter (· ∈ grant.verbs)).map fun verb =>
    ⟨"right", [verbTerm verb, .str grant.scope.kind.asStr, .str grant.scope.value]⟩

def mint (now : Int) (ttl : Nat) (principal : Principal) (grants : List LiveGrant) : Token where
  authority :=
    { facts := ⟨"principal", [.str principal.column]⟩ :: grants.flatMap rights
      checks := [expiryCheck (now + ttl)] }
  blocks := []

/-! ## Attenuation -/

def scopeCheck : Scope → Query
  -- `check if resource($r), scope_kind("name"), $r == {name}`
  | .name name =>
    ⟨[⟨"resource", [.var "r"]⟩, ⟨"scope_kind", [text "name"]⟩],
      [.bin .eq (.term (.var "r")) (.term (text name))]⟩
  -- `check if resource($r), $r == {ns} || $r.starts_with({ns_dot})`
  | .nameSpace ns =>
    ⟨[⟨"resource", [.var "r"]⟩],
      [.bin .or (.bin .eq (.term (.var "r")) (.term (text ns)))
        (.bin .startsWith (.term (.var "r")) (.term (text (ns ++ "."))))]⟩

/-- `check if operation($op), {verbs}.contains($op)` -/
def verbsCheck (verbs : Finset Verb) : Query :=
  ⟨[⟨"operation", [.var "op"]⟩],
    [.bin .contains (.term (.val (.set (verbs.image Verb.asStr)))) (.term (.var "op"))]⟩

structure Attenuation where
  scope : Option Scope
  verbs : Option (Finset Verb)

def Attenuation.block (a : Attenuation) : Block := ⟨[], a.scope.toList.map scopeCheck ++ a.verbs.toList.map verbsCheck⟩

def attenuate (token : Token) (a : Attenuation) : Token := ⟨token.authority, token.blocks ++ [a.block]⟩

/-! ## Evaluation -/

/-- The facts of one operation on a point or a subtree. -/
def operationFacts (verb : Verb) (resource : Scope) (time : Int) : List Fact :=
  [⟨"time", [dateTerm time]⟩, ⟨"operation", [verbTerm verb]⟩, ⟨"resource", [.str resource.value]⟩,
    ⟨"scope_kind", [.str resource.kind.asStr]⟩]

/-- `allow if operation($v), resource($r), scope_kind("name"), right($v, "name", $r)` -/
def nameRight : Query :=
  ⟨[⟨"operation", [.var "v"]⟩, ⟨"resource", [.var "r"]⟩, ⟨"scope_kind", [text "name"]⟩,
    ⟨"right", [.var "v", text "name", .var "r"]⟩], []⟩

def namespaceRight (guard : Guard) : Query :=
  ⟨[⟨"operation", [.var "v"]⟩, ⟨"resource", [.var "r"]⟩, ⟨"right", [.var "v", text "namespace", .var "ns"]⟩],
    [guard]⟩

/-- `… right($v, "namespace", $ns), $r == $ns` -/
def atRoot : Guard := .bin .eq (.term (.var "r")) (.term (.var "ns"))

/-- `… right($v, "namespace", $ns), $r.starts_with($ns + ".")` -/
def belowRoot : Guard := .bin .startsWith (.term (.var "r")) (.bin .concat (.term (.var "ns")) (.term (text ".")))

/-- `… if true` -/
def always : Query := ⟨[], [.term (.val (.bool true))]⟩

def policies (requireRight : Bool) : List Policy :=
  if requireRight then
    [⟨true, nameRight⟩, ⟨true, namespaceRight atRoot⟩, ⟨true, namespaceRight belowRoot⟩, ⟨false, always⟩]
  else [⟨true, always⟩]

def evaluate (token : Token) (verb : Verb) (resource : Scope) (time : Int) (requireRight : Bool) : Bool :=
  authorize (operationFacts verb resource time) (policies requireRight) token

/-- The decision of a remote verifier, which has the token only. -/
def authorizes (token : Token) (verb : Verb) (resource : Scope) (time : Int) : Bool :=
  evaluate token verb resource time true

/-- The part of the gate's decision that the token makes. -/
def permits (token : Token) (verb : Verb) (resource : Scope) (time : Int) : Bool :=
  evaluate token verb resource time false

/-- What the bearer asked for: the request lies in the scope, if one was given, and the
verb is among the verbs, if some were. -/
def Attenuation.Leaves (a : Attenuation) (verb : Verb) (resource : Scope) : Prop :=
  (∀ scope, a.scope = some scope → scope.coversScope resource = true) ∧ ∀ verbs, a.verbs = some verbs → verb ∈ verbs

/-! ## The facts a query can meet -/

section World

variable {now : Int} {ttl : Nat} {principal : Principal} {grants : List LiveGrant} {verb : Verb} {resource : Scope}
  {time : Int}

/-- The facts of the authorizer and of the authority. -/
def world (principal : Principal) (grants : List LiveGrant) (verb : Verb) (resource : Scope) (time : Int) : List Fact :=
  operationFacts verb resource time ++ ⟨"principal", [.str principal.column]⟩ :: grants.flatMap rights

theorem mem_rights {f : Fact} :
    f ∈ grants.flatMap rights ↔ ∃ g ∈ grants, ∃ verb ∈ g.verbs,
      f = ⟨"right", [verbTerm verb, .str g.scope.kind.asStr, .str g.scope.value]⟩ := by
  unfold rights
  simp only [List.mem_flatMap, List.mem_map, List.mem_filter, decide_eq_true_iff]
  refine exists_congr fun g => and_congr_right fun _ => exists_congr fun verb' => ?_
  have hall : verb' ∈ Verb.all := by cases verb' <;> decide
  simp [hall, eq_comm]

theorem not_mem_rights {pred : String} {args : List Value} (hne : pred ≠ "right") :
    ⟨pred, args⟩ ∉ grants.flatMap rights := by
  intro h
  obtain ⟨g, -, verb', -, heq⟩ := mem_rights.mp h
  exact hne (congrArg Fact.pred heq)

theorem time_mem {x : Value} : ⟨"time", [x]⟩ ∈ world principal grants verb resource time ↔ x = dateTerm time := by
  have hno : ⟨"time", [x]⟩ ∉ grants.flatMap rights := not_mem_rights (by decide)
  simp [world, operationFacts, hno]

theorem operation_mem {x : Value} :
    ⟨"operation", [x]⟩ ∈ world principal grants verb resource time ↔ x = verbTerm verb := by
  have hno : ⟨"operation", [x]⟩ ∉ grants.flatMap rights := not_mem_rights (by decide)
  simp [world, operationFacts, hno]

theorem resource_mem {x : Value} :
    ⟨"resource", [x]⟩ ∈ world principal grants verb resource time ↔ x = .str resource.value := by
  have hno : ⟨"resource", [x]⟩ ∉ grants.flatMap rights := not_mem_rights (by decide)
  simp [world, operationFacts, hno]

theorem scopeKind_mem {x : Value} :
    ⟨"scope_kind", [x]⟩ ∈ world principal grants verb resource time ↔ x = .str resource.kind.asStr := by
  have hno : ⟨"scope_kind", [x]⟩ ∉ grants.flatMap rights := not_mem_rights (by decide)
  simp [world, operationFacts, hno]

theorem right_mem {args : List Value} :
    ⟨"right", args⟩ ∈ world principal grants verb resource time ↔ ∃ g ∈ grants, ∃ verb' ∈ g.verbs,
      args = [verbTerm verb', .str g.scope.kind.asStr, .str g.scope.value] := by
  unfold world
  rw [List.mem_append, List.mem_cons, mem_rights]
  simp [operationFacts]

/-! ## What the queries say -/

/-- A namespace does not ask whether the request is for a point or for a subtree. -/
theorem nameSpace_coversScope (ns : String) (scope : Scope) :
    (Scope.nameSpace ns).coversScope scope = namespaceCovers ns scope.value := by
  cases scope <;> rfl

theorem name_coversScope {name : String} {scope : Scope} :
    (Scope.name name).coversScope scope = true ↔ scope = .name name := by
  cases scope with
  | name n => simp [Scope.coversScope, Scope.covers, eq_comm]
  | nameSpace ns => simp [Scope.coversScope]

/-- How the facts say that the scope is a point. -/
theorem point_iff {scope : Scope} {name : String} :
    "name" = scope.kind.asStr ∧ scope.value = name ↔ scope = .name name := by
  cases scope with
  | name n => simp [Scope.kind, ScopeKind.asStr, Scope.value]
  | nameSpace ns => simp [Scope.kind, ScopeKind.asStr]

theorem subtree_iff {scope : Scope} {ns : String} :
    "namespace" = scope.kind.asStr ∧ scope.value = ns ↔ scope = .nameSpace ns := by
  cases scope with
  | name n => simp [Scope.kind, ScopeKind.asStr]
  | nameSpace n => simp [Scope.kind, ScopeKind.asStr, Scope.value]

theorem verbTerm_injective : Function.Injective verbTerm := by decide

variable {w : List Fact} (hw : w = world principal grants verb resource time)

include hw

theorem expiryCheck_means (expiry : Int) :
    (expiryCheck expiry).Means w ((time / 1000000000).toNat ≤ (expiry / 1000000000).toNat) := by
  subst hw
  let b : Bool := (time / 1000000000).toNat ≤ (expiry / 1000000000).toNat
  refine (Query.means_of_guard (M := fun τ => τ "t" = dateTerm time) (b := fun _ => b) ?_ ?_ ?_).congr ?_
  · simp [Guard.vars]
  · simp [Atom.ground, Term.ground, time_mem]
  · intro τ hτ
    simp only [Guard.eval, hτ]
    rfl
  · constructor
    · rintro ⟨-, -, hb⟩
      exact of_decide_eq_true hb
    · intro hle
      exact ⟨fun _ => dateTerm time, rfl, decide_eq_true hle⟩

theorem verbsCheck_means (verbs : Finset Verb) : (verbsCheck verbs).Means w (verb ∈ verbs) := by
  subst hw
  refine (Query.means_of_guard (M := fun τ => τ "op" = verbTerm verb)
    (b := fun _ => decide (verb.asStr ∈ verbs.image Verb.asStr)) ?_ ?_ ?_).congr ?_
  · simp [Guard.vars]
  · simp [Atom.ground, Term.ground, operation_mem]
  · intro τ hτ
    simp only [Guard.eval, hτ]
    rfl
  · have hinj : Function.Injective Verb.asStr := by decide
    rw [← hinj.mem_finset_image (s := verbs)]
    constructor
    · rintro ⟨-, -, hb⟩
      exact of_decide_eq_true hb
    · intro hmem
      exact ⟨fun _ => verbTerm verb, rfl, decide_eq_true hmem⟩

theorem scopeCheck_means (scope : Scope) : (scopeCheck scope).Means w (scope.coversScope resource = true) := by
  subst hw
  cases scope with
  | name name =>
    refine (Query.means_of_guard (M := fun τ => τ "r" = .str resource.value ∧ "name" = resource.kind.asStr)
      (b := fun _ => decide (resource.value = name)) ?_ ?_ ?_).congr ?_
    · simp [Guard.vars, text]
    · simp [Atom.ground, Term.ground, resource_mem, scopeKind_mem, text]
    · rintro τ ⟨hr, -⟩
      simp only [Guard.eval, hr]
      rfl
    · rw [name_coversScope, ← point_iff]
      constructor
      · rintro ⟨-, ⟨-, hkind⟩, hvalue⟩
        exact ⟨hkind, of_decide_eq_true hvalue⟩
      · rintro ⟨hkind, hvalue⟩
        exact ⟨fun _ => .str resource.value, ⟨rfl, hkind⟩, decide_eq_true hvalue⟩
  | nameSpace ns =>
    refine (Query.means_of_guard (M := fun τ => τ "r" = .str resource.value)
      (b := fun _ => decide (resource.value = ns) || (ns ++ ".").toList.isPrefixOf resource.value.toList)
      ?_ ?_ ?_).congr ?_
    · simp [Guard.vars, text]
    · simp [Atom.ground, Term.ground, resource_mem]
    · intro τ hr
      simp only [Guard.eval, hr]
      rfl
    · rw [nameSpace_coversScope, namespaceCovers_iff]
      constructor
      · rintro ⟨-, -, hb⟩
        simpa using hb
      · intro hcovers
        exact ⟨fun _ => .str resource.value, rfl, by simpa using hcovers⟩

theorem nameRight_means :
    nameRight.Means w (∃ g ∈ grants, verb ∈ g.verbs ∧ ∃ n, g.scope = .name n ∧ resource = .name n) := by
  subst hw
  refine Query.means_of_atoms.congr ?_
  simp only [List.forall_mem_cons, List.not_mem_nil, IsEmpty.forall_iff, implies_true, and_true, Atom.ground,
    Term.ground, text, List.map_cons, List.map_nil, operation_mem, resource_mem, scopeKind_mem, right_mem]
  constructor
  · rintro ⟨τ, hv, hr, hkind, g, hg, verb', hverb', heq⟩
    rw [hv, hr] at heq
    simp only [List.cons.injEq, Value.str.injEq, and_true] at heq
    obtain ⟨hverb, hname, hvalue⟩ := heq
    cases verbTerm_injective hverb
    refine ⟨g, hg, hverb', resource.value, point_iff.mp ⟨hname, hvalue.symm⟩, point_iff.mp ⟨?_, rfl⟩⟩
    exact Value.str.inj hkind
  · rintro ⟨g, hg, hverb, n, hscope, rfl⟩
    refine ⟨fun x => if x = "v" then verbTerm verb else .str n, rfl, rfl, rfl, g, hg, verb, hverb, ?_⟩
    rw [hscope]
    rfl

/-- What `test` says of a text; nothing else passes. -/
def passes (test : String → Bool) : Value → Bool
  | .str s => test s
  | _ => false

/-- A policy on namespaces, by what its guard says of a root. -/
theorem namespaceRight_means {guard : Guard} {test : String → Bool}
    (hvars : ∀ x ∈ guard.vars, x = "r" ∨ x = "ns")
    (heval : ∀ τ : String → Value, ∀ ns, τ "r" = .str resource.value → τ "ns" = .str ns →
      guard.eval (fun x => some (τ x)) = some (.bool (test ns))) :
    (namespaceRight guard).Means w
      (∃ g ∈ grants, verb ∈ g.verbs ∧ ∃ ns, g.scope = .nameSpace ns ∧ test ns = true) := by
  subst hw
  let M (τ : String → Value) : Prop := τ "v" = verbTerm verb ∧ τ "r" = .str resource.value ∧
    ∃ g ∈ grants, verb ∈ g.verbs ∧ ∃ ns, g.scope = .nameSpace ns ∧ τ "ns" = .str ns
  have hb : ∀ (τ : String → Value) ns, τ "ns" = .str ns → passes test (τ "ns") = test ns := by
    intro τ ns h
    rw [h]
    rfl
  refine (Query.means_of_guard (M := M) (b := fun τ => passes test (τ "ns")) ?_ ?_ ?_).congr ?_
  · intro x hx
    rcases hvars x hx with rfl | rfl <;> simp
  · intro τ
    simp only [List.forall_mem_cons, List.not_mem_nil, IsEmpty.forall_iff, implies_true, and_true, Atom.ground,
      Term.ground, text, List.map_cons, List.map_nil, operation_mem, resource_mem, right_mem]
    refine and_congr_right fun hv => and_congr_right fun _ => exists_congr fun g => and_congr_right fun _ => ?_
    constructor
    · rintro ⟨verb', hverb', heq⟩
      simp only [hv, List.cons.injEq, Value.str.injEq, and_true] at heq
      obtain ⟨hverb, hkind, hns⟩ := heq
      cases verbTerm_injective hverb
      exact ⟨hverb', g.scope.value, subtree_iff.mp ⟨hkind, rfl⟩, hns⟩
    · rintro ⟨hverb, ns, hscope, hns⟩
      refine ⟨verb, hverb, ?_⟩
      rw [hv, hns, hscope]
      rfl
  · rintro τ ⟨-, hr, g, -, -, ns, -, hns⟩
    rw [hb τ ns hns]
    exact heval τ ns hr hns
  · constructor
    · rintro ⟨τ, ⟨-, -, g, hg, hverb, ns, hscope, hns⟩, hτ⟩
      exact ⟨g, hg, hverb, ns, hscope, hb τ ns hns ▸ hτ⟩
    · rintro ⟨g, hg, hverb, ns, hscope, htest⟩
      let τ (x : String) : Value := if x = "v" then verbTerm verb else if x = "r" then .str resource.value else .str ns
      exact ⟨τ, ⟨rfl, rfl, g, hg, hverb, ns, hscope, rfl⟩, (hb τ ns rfl).trans htest⟩

theorem atRoot_means :
    (namespaceRight atRoot).Means w
      (∃ g ∈ grants, verb ∈ g.verbs ∧ ∃ ns, g.scope = .nameSpace ns ∧ decide (resource.value = ns) = true) := by
  refine namespaceRight_means hw ?_ ?_
  · simp [atRoot, Guard.vars]
  · intro τ ns hr hns
    simp only [atRoot, Guard.eval, hr, hns]
    rfl

theorem belowRoot_means :
    (namespaceRight belowRoot).Means w
      (∃ g ∈ grants, verb ∈ g.verbs ∧
        ∃ ns, g.scope = .nameSpace ns ∧ (ns ++ ".").toList.isPrefixOf resource.value.toList = true) := by
  refine namespaceRight_means hw ?_ ?_
  · simp [belowRoot, Guard.vars, text]
  · intro τ ns hr hns
    simp only [belowRoot, Guard.eval, hr, hns]
    rfl

omit hw in
theorem always_means : always.Means w True := by
  refine (Query.means_of_guard (M := fun _ => True) (b := fun _ => true) ?_ ?_ ?_).congr ?_
  · simp [Guard.vars]
  · simp
  · exact fun _ _ => rfl
  · exact iff_true_intro ⟨fun _ => .bool true, trivial, rfl⟩

/-- The three policies together are the covering relation of scopes. -/
theorem policies_allow :
    allowed w (policies true) = true ↔ ∃ g ∈ grants, verb ∈ g.verbs ∧ g.scope.coversScope resource = true := by
  have hcovers : ∀ scope : Scope, scope.coversScope resource = true ↔
      (∃ n, scope = .name n ∧ resource = .name n) ∨ (∃ ns, scope = .nameSpace ns ∧ decide (resource.value = ns) = true) ∨
        ∃ ns, scope = .nameSpace ns ∧ (ns ++ ".").toList.isPrefixOf resource.value.toList = true := by
    intro scope
    cases scope with
    | name n => simp [name_coversScope]
    | nameSpace ns => simp [nameSpace_coversScope, namespaceCovers_iff]
  simp only [hcovers, and_or_left, exists_or, policies, if_true]
  rw [allowed_allow (nameRight_means hw), allowed_allow (atRoot_means hw), allowed_allow (belowRoot_means hw),
    allowed_deny always_means]
  simp only [not_true_eq_false, false_and, or_false]

omit hw in
theorem policies_allow_any : allowed w (policies false) = true := by
  simp [policies, allowed_allow always_means]

theorem block_checksHold (a : Attenuation) : checksHold w a.block.checks = true ↔ a.Leaves verb resource := by
  unfold checksHold Attenuation.block Attenuation.Leaves
  simp only [List.all_append, Bool.and_eq_true, List.all_eq_true, List.mem_map, Option.mem_toList, decide_eq_true_iff,
    forall_exists_index, and_imp, forall_apply_eq_imp_iff₂, (scopeCheck_means hw _).run_eq_true,
    (verbsCheck_means hw _).run_eq_true]

end World

/-! ## Chains of attenuations -/

/-- A block appended to a token of any history is one more conjunct of its answer. -/
theorem evaluate_attenuate (token : Token) (a : Attenuation) (verb : Verb) (resource : Scope) (time : Int)
    (requireRight : Bool) :
    evaluate (attenuate token a) verb resource time requireRight =
      (evaluate token verb resource time requireRight &&
        checksHold (operationFacts verb resource time ++ token.authority.facts) a.block.checks) := by
  have happend : evaluate (attenuate token a) verb resource time requireRight = _ := authorize_append a.block
  rw [show a.block.facts = [] from rfl, List.append_nil] at happend
  exact happend

theorem authority_foldl_attenuate (token : Token) (chain : List Attenuation) :
    (chain.foldl attenuate token).authority = token.authority := by
  induction chain generalizing token with
  | nil => rfl
  | cons a chain ih => exact ih (attenuate token a)

section Chain

variable {now : Int} {ttl : Nat} {principal : Principal} {grants : List LiveGrant} {verb : Verb} {resource : Scope}
  {time : Int}

theorem evaluate_chain {requireRight : Bool} (chain : List Attenuation) :
    evaluate (chain.foldl attenuate (mint now ttl principal grants)) verb resource time requireRight = true ↔
      evaluate (mint now ttl principal grants) verb resource time requireRight = true ∧
        ∀ a ∈ chain, a.Leaves verb resource := by
  induction chain using List.reverseRecOn with
  | nil => simp
  | append_singleton chain a ih =>
    have hworld : operationFacts verb resource time ++
        (chain.foldl attenuate (mint now ttl principal grants)).authority.facts =
          world principal grants verb resource time := by
      rw [authority_foldl_attenuate]
      rfl
    rw [List.foldl_concat, evaluate_attenuate, Bool.and_eq_true, ih, block_checksHold hworld, and_assoc,
      List.forall_mem_append, List.forall_mem_singleton]

theorem evaluate_mint {requireRight : Bool} (htime : time ≤ now + ttl) :
    evaluate (mint now ttl principal grants) verb resource time requireRight = true ↔
      allowed (world principal grants verb resource time) (policies requireRight) = true := by
  have hexpiry : checksHold (world principal grants verb resource time) [expiryCheck (now + ttl)] = true := by
    have hmeans := expiryCheck_means (w := world principal grants verb resource time) rfl (now + ttl)
    have hrun := hmeans.run_eq_true.mpr (Int.toNat_le_toNat (Int.ediv_le_ediv (by decide) htime))
    simp [checksHold, hrun]
  show (checksHold (world principal grants verb resource time) [expiryCheck (now + ttl)] && true &&
    allowed (world principal grants verb resource time) (policies requireRight)) = true ↔ _
  rw [hexpiry]
  rfl

end Chain

/-- Until it expires, a token authorizes what some grant of its snapshot covers and every
attenuation leaves; it permits the same without the grant; and at any time an attenuated
token authorizes and permits nothing that its parent does not. -/
theorem attenuation_narrows (now : Int) (ttl : Nat) (principal : Principal) (grants : List LiveGrant)
    (chain : List Attenuation) (verb : Verb) (resource : Scope) (time : Int) (htime : time ≤ now + ttl) :
    (authorizes (chain.foldl attenuate (mint now ttl principal grants)) verb resource time = true ↔
      (∃ g ∈ grants, verb ∈ g.verbs ∧ g.scope.coversScope resource = true) ∧ ∀ a ∈ chain, a.Leaves verb resource) ∧
    (permits (chain.foldl attenuate (mint now ttl principal grants)) verb resource time = true ↔
      ∀ a ∈ chain, a.Leaves verb resource) ∧
    ∀ (parent : Token) (a : Attenuation) (verb : Verb) (resource : Scope) (time : Int),
      (authorizes (attenuate parent a) verb resource time = true → authorizes parent verb resource time = true) ∧
      (permits (attenuate parent a) verb resource time = true → permits parent verb resource time = true) := by
  refine ⟨?_, ?_, ?_⟩
  · unfold authorizes
    rw [evaluate_chain, evaluate_mint htime, policies_allow rfl]
  · unfold permits
    rw [evaluate_chain, evaluate_mint htime]
    exact and_iff_right policies_allow_any
  · intro parent a verb resource time
    have hfirst : ∀ requireRight, evaluate (attenuate parent a) verb resource time requireRight = true →
        evaluate parent verb resource time requireRight = true := by
      intro requireRight h
      rw [evaluate_attenuate, Bool.and_eq_true] at h
      exact h.1
    exact ⟨hfirst true, hfirst false⟩

/-- A read of `notes.daily`, half a minute after minting, under a token for the namespace
`notes` that was narrowed to `notes.daily`. -/
theorem attenuation_narrows_to_point :
    authorizes ([⟨some (.name "notes.daily"), none⟩].foldl attenuate
      (mint 0 60000000000 (.agent "scribe") [⟨1, {.read}, .nameSpace "notes"⟩])) .read (.name "notes.daily")
        30000000000 = true := by
  refine (attenuation_narrows 0 60000000000 (.agent "scribe") _ _ .read _ 30000000000 (by decide)).1.mpr ⟨?_, ?_⟩
  · exact ⟨_, List.mem_singleton_self _, by decide, by decide⟩
  · intro a ha
    cases List.mem_singleton.mp ha
    refine ⟨?_, nofun⟩
    intro scope hscope
    cases hscope
    decide

end FactorQ.Grants
