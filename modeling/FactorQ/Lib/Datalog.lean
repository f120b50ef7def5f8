/-
# `Lib.Datalog` — queries over facts, and who may ask them

The fragment of Datalog that authorization tokens are written in: ground facts, and
queries made of atoms and guards.  A query holds if some assignment of values to the
variables turns every atom into a fact and every guard into `true`.

Evaluation goes through the atoms from left to right, tries every fact for each and
grows a substitution.  A guard that cannot be evaluated (an operator on values of the
wrong type) aborts it.  `Query.run_iff` ties the two readings together for queries whose
guards use no variable but those of the atoms and never go wrong.

A token is a list of blocks, the first of which is the authority.  Every check of every
block must hold, each over the facts of the authorizer, of the authority and of its own
block; then the first policy that applies decides.
-/
import Mathlib.Tactic

namespace Lib.Datalog

/-! ## Facts, atoms, guards -/

inductive Value where
  | str (s : String)
  | date (seconds : Nat)
  | set (elems : Finset String)
  | bool (b : Bool)
deriving DecidableEq

instance : Inhabited Value := ⟨.bool false⟩

structure Fact where
  pred : String
  args : List Value
deriving DecidableEq

inductive Term where
  | var (x : String)
  | val (v : Value)

structure Atom where
  pred : String
  args : List Term

inductive Op where
  | eq
  | le
  | or
  | startsWith
  | contains
  | concat

inductive Guard where
  | term (t : Term)
  | bin (op : Op) (a b : Guard)

structure Query where
  atoms : List Atom
  guards : List Guard

/-! ## What a query means -/

def Term.ground (τ : String → Value) : Term → Value
  | .var x => τ x
  | .val v => v

def Atom.ground (τ : String → Value) (a : Atom) : Fact := ⟨a.pred, a.args.map (Term.ground τ)⟩

/-- Nothing where an operator meets the wrong type. -/
def Op.apply : Op → Value → Value → Option Value
  | .eq, .str x, .str y => some (.bool (x = y))
  | .eq, .date x, .date y => some (.bool (x = y))
  | .le, .date x, .date y => some (.bool (x ≤ y))
  | .or, .bool x, .bool y => some (.bool (x || y))
  | .startsWith, .str x, .str y => some (.bool (y.toList.isPrefixOf x.toList))
  | .contains, .set s, .str x => some (.bool (x ∈ s))
  | .concat, .str x, .str y => some (.str (x ++ y))
  | _, _, _ => none

def Guard.eval (env : String → Option Value) : Guard → Option Value
  | .term (.var x) => env x
  | .term (.val v) => some v
  | .bin op a b => (a.eval env).bind fun x => (b.eval env).bind fun y => op.apply x y

/-- `τ` makes facts of the atoms. -/
def Query.Matches (q : Query) (facts : List Fact) (τ : String → Value) : Prop := ∀ a ∈ q.atoms, a.ground τ ∈ facts

def Query.Holds (q : Query) (facts : List Fact) : Prop :=
  ∃ τ, q.Matches facts τ ∧ ∀ g ∈ q.guards, g.eval (fun x => some (τ x)) = some (.bool true)

/-! ## Evaluation -/

abbrev Subst := List (String × Value)

def matchTerm (σ : Subst) (t : Term) (v : Value) : Option Subst :=
  match t with
  | .val w => if w = v then some σ else none
  | .var x =>
    match σ.lookup x with
    | some w => if w = v then some σ else none
    | none => some ((x, v) :: σ)

def matchArgs (σ : Subst) : List Term → List Value → Option Subst
  | [], [] => some σ
  | t :: ts, v :: vs => (matchTerm σ t v).bind fun σ => matchArgs σ ts vs
  | _, _ => none

def matchAtom (σ : Subst) (a : Atom) (f : Fact) : Option Subst :=
  if a.pred = f.pred then matchArgs σ a.args f.args else none

/-- Every way to match the atoms. -/
def solutions (facts : List Fact) (σ : Subst) : List Atom → List Subst
  | [] => [σ]
  | a :: atoms => facts.flatMap fun f => (matchAtom σ a f).elim [] fun σ => solutions facts σ atoms

/-- The truth value of a guard under `σ`, if it has one. -/
def Guard.test (σ : Subst) (g : Guard) : Option Bool :=
  match g.eval fun x => σ.lookup x with
  | some (.bool b) => some b
  | _ => none

/-- Does the query hold?  Nothing if the evaluation is aborted. -/
def Query.run (q : Query) (facts : List Fact) : Option Bool :=
  ((solutions facts [] q.atoms).mapM fun σ => (q.guards.mapM (Guard.test σ)).map fun bs => bs.all id).map fun bs =>
    bs.any id

/-! ## Matching -/

/-- `τ` goes along with the substitution. -/
def Agrees (τ : String → Value) (σ : Subst) : Prop := ∀ x v, σ.lookup x = some v → τ x = v

variable {τ : String → Value} {σ σ' : Subst} {facts : List Fact} {q : Query}

variable {x : String}

theorem matchTerm_bound {v w : Value} (h : σ.lookup x = some w) :
    matchTerm σ (.var x) v = if w = v then some σ else none := by
  simp only [matchTerm, h]

theorem matchTerm_free {v : Value} (h : σ.lookup x = none) :
    matchTerm σ (.var x) v = some ((x, v) :: σ) := by
  simp only [matchTerm, h]

/-- An assignment goes along with a match exactly if it makes the match. -/
theorem matchTerm_agrees {t : Term} {v : Value} :
    (∃ σ', matchTerm σ t v = some σ' ∧ Agrees τ σ') ↔ Agrees τ σ ∧ t.ground τ = v := by
  cases t with
  | val w =>
    unfold matchTerm Term.ground
    by_cases hw : w = v
    · simp [hw]
    · simp [hw]
  | var x =>
    cases hx : σ.lookup x with
    | some w =>
      rw [matchTerm_bound hx]
      constructor
      · rintro ⟨σ', hσ', hag⟩
        split at hσ'
        · next hw =>
          cases hσ'
          exact ⟨hag, (hag x w hx).trans hw⟩
        · cases hσ'
      · rintro ⟨hag, hv⟩
        rw [if_pos ((hag x w hx).symm.trans hv)]
        exact ⟨σ, rfl, hag⟩
    | none =>
      rw [matchTerm_free hx]
      constructor
      · rintro ⟨σ', hσ', hag⟩
        cases hσ'
        refine ⟨fun y w hy => hag y w ?_, hag x v (by simp)⟩
        have hne : (y == x) = false := by
          rw [beq_eq_false_iff_ne]
          rintro rfl
          rw [hx] at hy
          cases hy
        rw [List.lookup_cons, hne]
        exact hy
      · rintro ⟨hag, rfl⟩
        refine ⟨_, rfl, fun y w hy => ?_⟩
        rw [List.lookup_cons] at hy
        split at hy
        · next hyx =>
          cases hy
          exact congrArg τ (beq_iff_eq.mp hyx)
        · exact hag y w hy

theorem matchArgs_agrees {ts : List Term} {vs : List Value} :
    (∃ σ', matchArgs σ ts vs = some σ' ∧ Agrees τ σ') ↔ Agrees τ σ ∧ ts.map (Term.ground τ) = vs := by
  induction ts generalizing σ vs with
  | nil =>
    cases vs with
    | nil => simp [matchArgs]
    | cons v vs => simp [matchArgs]
  | cons t ts ih =>
    cases vs with
    | nil => simp [matchArgs]
    | cons v vs =>
      rw [List.map_cons, List.cons.injEq, ← and_assoc, ← matchTerm_agrees]
      constructor
      · rintro ⟨σ', hσ', hag⟩
        obtain ⟨σ₁, h₁, h₂⟩ := Option.bind_eq_some_iff.mp hσ'
        obtain ⟨hag₁, hts⟩ := ih.mp ⟨σ', h₂, hag⟩
        exact ⟨⟨σ₁, h₁, hag₁⟩, hts⟩
      · rintro ⟨⟨σ₁, h₁, hag₁⟩, hts⟩
        obtain ⟨σ', h₂, hag⟩ := ih.mpr ⟨hag₁, hts⟩
        exact ⟨σ', Option.bind_eq_some_iff.mpr ⟨σ₁, h₁, h₂⟩, hag⟩

theorem matchAtom_agrees {a : Atom} {f : Fact} :
    (∃ σ', matchAtom σ a f = some σ' ∧ Agrees τ σ') ↔ Agrees τ σ ∧ a.ground τ = f := by
  unfold matchAtom Atom.ground
  by_cases hp : a.pred = f.pred
  · rw [if_pos hp, matchArgs_agrees]
    refine and_congr_right fun _ => ?_
    cases f with
    | mk pred args =>
      cases hp
      simp
  · rw [if_neg hp]
    constructor
    · rintro ⟨σ', h, -⟩
      cases h
    · rintro ⟨-, rfl⟩
      exact absurd rfl hp

variable {atoms : List Atom}

theorem solutions_agrees :
    (∃ σ' ∈ solutions facts σ atoms, Agrees τ σ') ↔ Agrees τ σ ∧ ∀ a ∈ atoms, a.ground τ ∈ facts := by
  induction atoms generalizing σ with
  | nil => simp [solutions]
  | cons a atoms ih =>
    unfold solutions
    rw [List.forall_mem_cons]
    constructor
    · rintro ⟨σ', hmem, hag⟩
      obtain ⟨f, hf, hmem⟩ := List.mem_flatMap.mp hmem
      cases hm : matchAtom σ a f with
      | none =>
        rw [hm] at hmem
        cases hmem
      | some σ₁ =>
        rw [hm] at hmem
        obtain ⟨hag₁, hrest⟩ := ih.mp ⟨σ', hmem, hag⟩
        obtain ⟨hag₀, hground⟩ := matchAtom_agrees.mp ⟨σ₁, hm, hag₁⟩
        exact ⟨hag₀, hground ▸ hf, hrest⟩
    · rintro ⟨hag, hhead, hrest⟩
      obtain ⟨σ₁, hm, hag₁⟩ := matchAtom_agrees.mpr ⟨hag, rfl⟩
      obtain ⟨σ', hmem, hag'⟩ := ih.mpr ⟨hag₁, hrest⟩
      refine ⟨σ', List.mem_flatMap.mpr ⟨_, hhead, ?_⟩, hag'⟩
      rw [hm]
      exact hmem

/-- What a substitution says, and anything for what it does not mention. -/
def Subst.total (σ : Subst) (x : String) : Value := (σ.lookup x).getD default

theorem agrees_total (σ : Subst) : Agrees σ.total σ := by
  intro x v h
  unfold Subst.total
  rw [h]
  rfl

/-! ## Guards -/

variable {env env' : String → Option Value}

/-- A guard that has a value keeps it when more variables get one. -/
theorem Guard.eval_mono (henv : ∀ x v, env x = some v → env' x = some v) (g : Guard) :
    ∀ v, g.eval env = some v → g.eval env' = some v := by
  induction g with
  | term t =>
    cases t with
    | var x => exact henv x
    | val w => exact fun v h => h
  | bin op a b iha ihb =>
    intro v h
    obtain ⟨x, hx, h⟩ := Option.bind_eq_some_iff.mp h
    obtain ⟨y, hy, h⟩ := Option.bind_eq_some_iff.mp h
    exact Option.bind_eq_some_iff.mpr ⟨x, iha x hx, Option.bind_eq_some_iff.mpr ⟨y, ihb y hy, h⟩⟩

theorem Guard.test_some {g : Guard} {b : Bool} (h : g.test σ = some b) (hag : Agrees τ σ) :
    g.eval (fun x => some (τ x)) = some (.bool b) := by
  unfold Guard.test at h
  split at h
  · next b' heval =>
    cases h
    exact Guard.eval_mono (fun x v hx => congrArg some (hag x v hx)) g _ heval
  · cases h

/-! ## The answer -/

section MapM

variable {α β : Type} {f : α → Option β} {l : List α} {l' : List β}

theorem forall₂_of_mapM (h : l.mapM f = some l') : List.Forall₂ (fun a b => f a = some b) l l' := by
  induction l generalizing l' with
  | nil =>
    cases h
    exact .nil
  | cons a l ih =>
    rw [List.mapM_cons] at h
    obtain ⟨b, hb, h⟩ := Option.bind_eq_some_iff.mp h
    obtain ⟨bs, hbs, h⟩ := Option.bind_eq_some_iff.mp h
    cases h
    exact .cons hb (ih hbs)

theorem mem_left_of_mapM (h : l.mapM f = some l') {a : α} (ha : a ∈ l) : ∃ b ∈ l', f a = some b := by
  have hall := forall₂_of_mapM h
  clear h
  induction hall with
  | nil => cases ha
  | cons hab _ ih =>
    rcases List.mem_cons.mp ha with rfl | ha
    · exact ⟨_, List.mem_cons_self, hab⟩
    · obtain ⟨b, hb, hfa⟩ := ih ha
      exact ⟨b, List.mem_cons_of_mem _ hb, hfa⟩

theorem mem_right_of_mapM (h : l.mapM f = some l') {b : β} (hb : b ∈ l') : ∃ a ∈ l, f a = some b := by
  have hall := forall₂_of_mapM h
  clear h
  induction hall with
  | nil => cases hb
  | cons hab _ ih =>
    rcases List.mem_cons.mp hb with rfl | hb
    · exact ⟨_, List.mem_cons_self, hab⟩
    · obtain ⟨a, ha, hfa⟩ := ih hb
      exact ⟨a, List.mem_cons_of_mem _ ha, hfa⟩

theorem mapM_isSome (h : ∀ a ∈ l, ∃ b, f a = some b) : ∃ l', l.mapM f = some l' := by
  induction l with
  | nil => exact ⟨[], rfl⟩
  | cons a l ih =>
    obtain ⟨b, hb⟩ := h a List.mem_cons_self
    obtain ⟨bs, hbs⟩ := ih fun a' ha' => h a' (List.mem_cons_of_mem a ha')
    exact ⟨b :: bs, by rw [List.mapM_cons, hb, hbs]; rfl⟩

end MapM

/-- An evaluation that is not aborted gives the meaning of the query. -/
theorem Query.run_iff {b : Bool} (h : q.run facts = some b) : b = true ↔ q.Holds facts := by
  obtain ⟨bs, hbs, rfl⟩ := Option.map_eq_some_iff.mp h
  rw [List.any_eq_true]
  constructor
  · rintro ⟨b, hb, htrue⟩
    obtain ⟨σ, hσ, hguards⟩ := mem_right_of_mapM hbs hb
    obtain ⟨gs, hgs, rfl⟩ := Option.map_eq_some_iff.mp hguards
    have hag := agrees_total σ
    refine ⟨σ.total, (solutions_agrees.mp ⟨σ, hσ, hag⟩).2, fun g hg => ?_⟩
    obtain ⟨c, hc, htest⟩ := mem_left_of_mapM hgs hg
    obtain rfl : c = true := List.all_eq_true.mp htrue c hc
    exact Guard.test_some htest hag
  · rintro ⟨τ, hmatch, hguards⟩
    obtain ⟨σ, hσ, hag⟩ := solutions_agrees.mpr ⟨(nofun : Agrees τ []), hmatch⟩
    obtain ⟨b, hb, hrun⟩ := mem_left_of_mapM hbs hσ
    obtain ⟨gs, hgs, rfl⟩ := Option.map_eq_some_iff.mp hrun
    refine ⟨_, hb, List.all_eq_true.mpr fun c hc => ?_⟩
    obtain ⟨g, hg, htest⟩ := mem_right_of_mapM hgs hc
    have heval := (Guard.test_some htest hag).symm.trans (hguards g hg)
    cases heval
    rfl

/-! ## Queries that are not aborted -/

def Guard.vars : Guard → List String
  | .term (.var x) => [x]
  | .term (.val _) => []
  | .bin _ a b => a.vars ++ b.vars

/-- The guards use the variables of the atoms only. -/
def Query.Safe (q : Query) : Prop := ∀ g ∈ q.guards, ∀ x ∈ g.vars, ∃ a ∈ q.atoms, Term.var x ∈ a.args

/-- The guards have a truth value wherever the atoms match. -/
def Query.Typed (q : Query) (facts : List Fact) : Prop :=
  ∀ τ, q.Matches facts τ → ∀ g ∈ q.guards, ∃ b, g.eval (fun x => some (τ x)) = some (.bool b)

theorem matchTerm_binds {t : Term} {v : Value} (h : matchTerm σ t v = some σ')
    (hx : (σ.lookup x).isSome = true ∨ t = .var x) : (σ'.lookup x).isSome = true := by
  cases t with
  | val w =>
    change (if w = v then some σ else none) = some σ' at h
    split at h
    · cases h
      exact hx.resolve_right nofun
    · cases h
  | var y =>
    cases hy : σ.lookup y with
    | some w =>
      rw [matchTerm_bound hy] at h
      split at h
      · cases h
        rcases hx with hx | hx
        · exact hx
        · cases hx
          rw [hy]
          rfl
      · cases h
    | none =>
      rw [matchTerm_free hy] at h
      cases h
      rw [List.lookup_cons]
      split
      · rfl
      · next hne =>
        rcases hx with hx | hx
        · exact hx
        · cases hx
          rw [beq_self_eq_true] at hne
          cases hne

theorem matchArgs_binds {ts : List Term} {vs : List Value} (h : matchArgs σ ts vs = some σ')
    (hx : (σ.lookup x).isSome = true ∨ .var x ∈ ts) : (σ'.lookup x).isSome = true := by
  induction ts generalizing σ vs with
  | nil =>
    cases vs with
    | nil =>
      cases h
      exact hx.resolve_right nofun
    | cons v vs => cases h
  | cons t ts ih =>
    cases vs with
    | nil => cases h
    | cons v vs =>
      obtain ⟨σ₁, h₁, h₂⟩ := Option.bind_eq_some_iff.mp h
      refine ih h₂ ?_
      rcases hx with hx | hx
      · exact .inl (matchTerm_binds h₁ (.inl hx))
      · rcases List.mem_cons.mp hx with rfl | hx
        · exact .inl (matchTerm_binds h₁ (.inr rfl))
        · exact .inr hx

theorem solutions_binds (h : σ' ∈ solutions facts σ atoms)
    (hx : (σ.lookup x).isSome = true ∨ ∃ a ∈ atoms, .var x ∈ a.args) : (σ'.lookup x).isSome = true := by
  induction atoms generalizing σ with
  | nil =>
    cases List.mem_singleton.mp h
    exact hx.resolve_right nofun
  | cons a atoms ih =>
    obtain ⟨f, -, hmem⟩ := List.mem_flatMap.mp h
    cases hm : matchAtom σ a f with
    | none =>
      rw [hm] at hmem
      cases hmem
    | some σ₁ =>
      rw [hm] at hmem
      unfold matchAtom at hm
      split at hm
      · refine ih hmem ?_
        rcases hx with hx | ⟨a', ha', hx⟩
        · exact .inl (matchArgs_binds hm (.inl hx))
        · rcases List.mem_cons.mp ha' with rfl | ha'
          · exact .inl (matchArgs_binds hm (.inr hx))
          · exact .inr ⟨a', ha', hx⟩
      · cases hm

theorem Guard.eval_congr (g : Guard) (h : ∀ x ∈ g.vars, env x = env' x) : g.eval env = g.eval env' := by
  induction g with
  | term t =>
    cases t with
    | var x => exact h x (List.mem_singleton_self x)
    | val v => rfl
  | bin op a b iha ihb =>
    unfold Guard.eval
    rw [iha fun x hx => h x (List.mem_append_left _ hx), ihb fun x hx => h x (List.mem_append_right _ hx)]

open Classical in
/-- A safe, typed query evaluates to its meaning. -/
theorem Query.run_eq (hsafe : q.Safe) (htyped : q.Typed facts) : q.run facts = some (decide (q.Holds facts)) := by
  have htests : ∀ σ ∈ solutions facts [] q.atoms, ∃ bs, q.guards.mapM (Guard.test σ) = some bs := by
    intro σ hσ
    refine mapM_isSome fun g hg => ?_
    obtain ⟨b, hb⟩ := htyped σ.total (solutions_agrees.mp ⟨σ, hσ, agrees_total σ⟩).2 g hg
    have hbound : ∀ x ∈ g.vars, σ.lookup x = some (σ.total x) := by
      intro x hx
      obtain ⟨v, hv⟩ := Option.isSome_iff_exists.mp (solutions_binds hσ (.inr (hsafe g hg x hx)))
      unfold Subst.total
      rw [hv]
      rfl
    refine ⟨b, ?_⟩
    unfold Guard.test
    rw [g.eval_congr hbound, hb]
  have hrun : ∃ b, q.run facts = some b := by
    have hall : ∀ σ ∈ solutions facts [] q.atoms,
        ∃ b, ((q.guards.mapM (Guard.test σ)).map fun bs => bs.all id) = some b := by
      intro σ hσ
      obtain ⟨bs, hbs⟩ := htests σ hσ
      rw [hbs]
      exact ⟨_, rfl⟩
    obtain ⟨bs, hbs⟩ := mapM_isSome hall
    unfold Query.run
    rw [hbs]
    exact ⟨_, rfl⟩
  obtain ⟨b, hb⟩ := hrun
  rw [hb]
  congr 1
  rw [Bool.eq_iff_iff, Query.run_iff hb, decide_eq_true_iff]

theorem Query.run_eq_true (hsafe : q.Safe) (htyped : q.Typed facts) : q.run facts = some true ↔ q.Holds facts := by
  rw [Query.run_eq hsafe htyped]
  simp

/-- Over `facts`, the query is evaluated without an abort and says `P`. -/
structure Query.Means (q : Query) (facts : List Fact) (P : Prop) : Prop where
  safe : q.Safe
  typed : q.Typed facts
  holds : q.Holds facts ↔ P

variable {P : Prop}

theorem Query.Means.run_eq_true (h : q.Means facts P) : q.run facts = some true ↔ P :=
  (Query.run_eq_true h.safe h.typed).trans h.holds

theorem Query.Means.congr {P P' : Prop} (h : q.Means facts P) (hP : P ↔ P') : q.Means facts P' :=
  ⟨h.safe, h.typed, h.holds.trans hP⟩

/-- A query with no guard says that its atoms match. -/
theorem Query.means_of_atoms :
    Query.Means ⟨atoms, []⟩ facts (∃ τ : String → Value, ∀ a ∈ atoms, a.ground τ ∈ facts) where
  safe := nofun
  typed := fun _ _ => nofun
  holds := exists_congr fun _ => and_iff_left nofun

/-- A query with one guard: what it takes to match, and the value of the guard there. -/
theorem Query.means_of_guard {g : Guard} {M : (String → Value) → Prop} {b : (String → Value) → Bool}
    (hsafe : ∀ x ∈ g.vars, ∃ a ∈ atoms, Term.var x ∈ a.args)
    (hmatch : ∀ τ, (∀ a ∈ atoms, a.ground τ ∈ facts) ↔ M τ)
    (hguard : ∀ τ, M τ → g.eval (fun x => some (τ x)) = some (.bool (b τ))) :
    Query.Means ⟨atoms, [g]⟩ facts (∃ τ, M τ ∧ b τ = true) where
  safe := by
    intro g' hg'
    cases List.mem_singleton.mp hg'
    exact hsafe
  typed := by
    intro τ hτ g' hg'
    cases List.mem_singleton.mp hg'
    exact ⟨b τ, hguard τ ((hmatch τ).mp hτ)⟩
  holds := by
    refine exists_congr fun τ => ?_
    show (∀ a ∈ atoms, a.ground τ ∈ facts) ∧ _ ↔ _
    rw [hmatch τ]
    refine and_congr_right fun hτ => ?_
    rw [List.forall_mem_singleton, hguard τ hτ]
    simp

/-! ## Tokens -/

structure Block where
  facts : List Fact
  checks : List Query

structure Policy where
  allow : Bool
  query : Query

/-- A token: the authority, and the blocks its bearers have appended. -/
structure Token where
  authority : Block
  blocks : List Block

def checksHold (facts : List Fact) (checks : List Query) : Bool := checks.all fun c => c.run facts = some true

/-- The first policy that applies decides; an abort, or no policy, denies. -/
def allowed (facts : List Fact) : List Policy → Bool
  | [] => false
  | p :: ps =>
    match p.query.run facts with
    | some true => p.allow
    | some false => allowed facts ps
    | none => false

/-- A check sees the facts of the authorizer, the authority and its own block. -/
def authorize (facts : List Fact) (policies : List Policy) (token : Token) : Bool :=
  let world := facts ++ token.authority.facts
  checksHold world token.authority.checks &&
    token.blocks.all (fun b => checksHold (world ++ b.facts) b.checks) && allowed world policies

variable {ps : List Policy}

theorem allowed_cons {p : Policy} (h : p.query.Means facts P) :
    allowed facts (p :: ps) = true ↔ (P ∧ p.allow = true) ∨ (¬ P ∧ allowed facts ps = true) := by
  rw [allowed, Query.run_eq h.safe h.typed, ← h.holds]
  by_cases hh : p.query.Holds facts
  · simp [hh]
  · simp [hh]

theorem allowed_allow (h : q.Means facts P) :
    allowed facts (⟨true, q⟩ :: ps) = true ↔ P ∨ allowed facts ps = true := by
  rw [allowed_cons h]
  by_cases hP : P <;> simp [hP]

theorem allowed_deny (h : q.Means facts P) :
    allowed facts (⟨false, q⟩ :: ps) = true ↔ ¬ P ∧ allowed facts ps = true := by
  rw [allowed_cons h]
  simp

/-- Appending a block takes away, and never adds. -/
theorem authorize_append {policies : List Policy} {token : Token} (b : Block) :
    authorize facts policies ⟨token.authority, token.blocks ++ [b]⟩ =
      (authorize facts policies token && checksHold (facts ++ token.authority.facts ++ b.facts) b.checks) := by
  unfold authorize
  dsimp only
  rw [List.all_append, List.all_cons, List.all_nil, Bool.and_true]
  simp only [Bool.and_comm, Bool.and_left_comm]

end Lib.Datalog
