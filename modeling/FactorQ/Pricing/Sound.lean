/-
# `FactorQ.Pricing.Sound` — what acceptance guarantees

Two statements about one acceptance.  `accept_sound` reads the accepted table: whatever the
prior and the candidate hold, all of it is priced above zero, no usable price has moved past
the ratio, and each candidate model went one of three ways, with one refusal if and only if
the proposal did not pass.

`cached_document_settled` reads the document that is cached.  It is spliced from the raw
documents, whose entries the table may not be able to read, and it says what the table says;
and since the splice leaves each refused model with the price it was judged against, the same
document judged again is refused in the same places.  The raw value of an entry is anything
that deserializes to what the table reads.
-/
import FactorQ.Pricing.Accept

namespace FactorQ.Pricing

open Lib
open PricingTable (fromLitellmDocument)

/-! ## The accepted table -/

/-- A list put together from the parts of distinct keys holds one part for each key. -/
theorem filter_flatMap_key {α β : Type} [DecidableEq α] (key : β → α) (part : α → List β)
    (hkey : ∀ a, ∀ b ∈ part a, key b = a) (a : α) (as : List α) (hnd : as.Nodup) :
    (as.flatMap part).filter (fun b => key b = a) = if a ∈ as then part a else [] := by
  induction as with
  | nil => rfl
  | cons c as ih =>
    obtain ⟨hnew, hnd⟩ := List.nodup_cons.1 hnd
    rw [List.flatMap_cons, List.filter_append, ih hnd]
    by_cases e : a = c
    · subst e
      have hall : (part a).filter (fun b => key b = a) = part a :=
        List.filter_eq_self.2 fun b hb => decide_eq_true (hkey a b hb)
      rw [hall, if_neg hnew, if_pos List.mem_cons_self, List.append_nil]
    · have hnone : (part c).filter (fun b => key b = a) = [] :=
        List.filter_eq_nil_iff.2 fun b hb he => e ((of_decide_eq_true he).symm.trans (hkey c b hb))
      rw [hnone, List.nil_append]
      simp only [List.mem_cons, e, false_or]

section Sound

variable (prior candidate : PricingTable) (rules : AcceptanceRules)

theorem refusals_of (m : String) :
    (accept prior candidate rules).2.filter (fun refusal => refusal.model = m) =
      ((candidate.entries.get? m).bind (refusalOf prior rules m)).toList := by
  have hkey : ∀ k, ∀ refusal ∈ ((candidate.entries.get? k).bind (refusalOf prior rules k)).toList,
      refusal.model = k := by
    intro k refusal hr
    obtain ⟨proposed, _, hr⟩ := Option.bind_eq_some_iff.1 (Option.mem_toList.1 hr)
    exact (refusalOf_eq_some hr).1
  have hnd : ((candidate.entries.rows.map Prod.fst).insertionSort (· ≤ ·)).Nodup :=
    (List.perm_insertionSort _ _).nodup_iff.2 candidate.entries.nodup
  rw [(accept_judged prior rules candidate).2, List.nil_append,
    filter_flatMap_key Refusal.model _ hkey m _ hnd]
  split
  next => rfl
  next hm =>
    rw [mem_models, Option.not_isSome_iff_eq_none] at hm
    rw [hm]
    rfl

variable {rules}

theorem Within.bounds {previous pricing : ModelPricing} (h : Within rules previous pricing)
    (hprevious : Plausible previous) (hpricing : Plausible pricing) {field : PriceField} {old new : ℚ}
    (hold : field.perMillion previous = some old) (hnew : field.perMillion pricing = some new) :
    new ≤ rules.maxDriftRatio * old ∧ old ≤ rules.maxDriftRatio * new := by
  have hratio := h field old new hold hnew
  have hrise : new / old ≤ rules.maxDriftRatio := (le_max_left _ _).trans hratio
  have hfall : old / new ≤ rules.maxDriftRatio := (le_max_right _ _).trans hratio
  exact ⟨(div_le_iff₀ (hprevious field old hold)).1 hrise, (div_le_iff₀ (hpricing field new hnew)).1 hfall⟩

variable (rules)

/-- **What is accepted.**  All of it is priced above zero; a model with a usable price keeps
its entry or has each price that both tables report within the ratio of the old one, up and
down; a candidate model is accepted as proposed with no refusal, kept at its prior entry or
left out with exactly one; and nothing else appears. -/
theorem accept_sound :
    (∀ m pricing, (accept prior candidate rules).1.entries.get? m = some pricing →
      ∀ field price, PriceField.perMillion field pricing = some price → 0 < price) ∧
    (∀ m previous proposed, prior.entries.get? m = some previous →
      (∀ field price, PriceField.perMillion field previous = some price → 0 < price) →
      candidate.entries.get? m = some proposed →
      ∃ pricing, (accept prior candidate rules).1.entries.get? m = some pricing ∧
        (pricing = previous ∨ ∀ field old new, PriceField.perMillion field previous = some old →
          PriceField.perMillion field pricing = some new →
          new ≤ rules.maxDriftRatio * old ∧ old ≤ rules.maxDriftRatio * new)) ∧
    (∀ m proposed, candidate.entries.get? m = some proposed →
      ((accept prior candidate rules).1.entries.get? m = some proposed ∧
        (accept prior candidate rules).2.filter (fun refusal => refusal.model = m) = []) ∨
      (∃ previous refusal, prior.entries.get? m = some previous ∧
        (accept prior candidate rules).1.entries.get? m = some previous ∧
        (accept prior candidate rules).2.filter (fun refusal => refusal.model = m) = [refusal] ∧
        refusal.disposition = .keptPriorPrice) ∨
      (∃ refusal, (accept prior candidate rules).1.entries.get? m = none ∧
        (accept prior candidate rules).2.filter (fun refusal => refusal.model = m) = [refusal] ∧
        refusal.disposition = .notAdmitted)) ∧
    (∀ m, candidate.entries.get? m = none → (accept prior candidate rules).1.entries.get? m = none) := by
  refine ⟨fun m pricing hm => accept_plausible prior candidate rules m pricing hm, ?_, ?_, ?_⟩
  · intro m previous proposed hprior hpos hcand
    have husable : usable prior m = some previous := usable_eq_some.2 ⟨hprior, hpos⟩
    have hget := get?_accept prior rules candidate m
    rw [hcand, Option.bind_some] at hget
    cases hrefusal : refusalOf prior rules m proposed with
    | some refusal =>
      rw [settled_refused hrefusal, husable] at hget
      exact ⟨previous, hget, .inl rfl⟩
    | none =>
      rw [settled_passed hrefusal] at hget
      have hsettled : settled prior rules m proposed = some proposed := settled_passed hrefusal
      refine ⟨proposed, hget, .inr fun field old new hold hnew => ?_⟩
      exact (settled_within hprior hpos hsettled).bounds hpos (plausible_of_settled hsettled) hold hnew
  · intro m proposed hcand
    have hget := get?_accept prior rules candidate m
    have hone := refusals_of prior candidate rules m
    rw [hcand, Option.bind_some] at hget hone
    cases hrefusal : refusalOf prior rules m proposed with
    | none =>
      rw [settled_passed hrefusal] at hget
      rw [hrefusal] at hone
      exact .inl ⟨hget, hone⟩
    | some refusal =>
      rw [settled_refused hrefusal] at hget
      rw [hrefusal] at hone
      have hadm := (refusalOf_eq_some hrefusal).2
      cases husable : usable prior m with
      | some previous =>
        rw [husable] at hget hadm
        refine .inr (.inl ⟨previous, refusal, (usable_eq_some.1 husable).1, hget, hone, ?_⟩)
        cases hdisp : refusal.disposition with
        | keptPriorPrice => rfl
        | notAdmitted => simp [Refusal.isAdmission, hdisp] at hadm
      | none =>
        rw [husable] at hget hadm
        exact .inr (.inr ⟨refusal, hget, hone, of_decide_eq_true hadm⟩)
  · intro m hcand
    rw [get?_accept, hcand]
    rfl

end Sound

/-! ## The cached document -/

theorem judgeChange_self {model : String} {pricing : ModelPricing} {rules : AcceptanceRules}
    (h : Plausible pricing) : judgeChange model pricing pricing rules = none := by
  refine List.findSome?_eq_none_iff.2 fun field _ => ?_
  cases hprice : field.perMillion pricing with
  | none => simp only [judgeField, hprice]
  | some price =>
    have hpos : isPositive price = true := decide_eq_true (h field price hprice)
    have hsame : ¬ driftRatio price price > rules.maxDriftRatio :=
      not_lt.2 (Within.refl rules h field price price hprice hprice)
    simp only [judgeField, hprice, hpos, not_true_eq_false, if_false, if_neg hsame]

section Cached

variable {ν : Type} (deserialize : ν → Option LiteLlmEntry)

/-- What the table reads of a raw document. -/
def parse (raw : Table String ν) : PricingTable :=
  fromLitellmDocument (raw.filterMap fun _ value => some (deserialize value))

theorem get?_parse (raw : Table String ν) (m : String) :
    (parse deserialize raw).entries.get? m =
      (raw.get? m).bind fun value => readEntry LiteLlmEntry.pricing m (deserialize value) := by
  rw [parse, get?_fromLitellmDocument, Table.get?_filterMap, Option.bind_assoc]
  rfl

variable (prior fetched : Table String ν) (rules : AcceptanceRules)

/-- The verdict on the fetched document. -/
def verdict : PricingTable × List Refusal := accept (parse deserialize prior) (parse deserialize fetched) rules

/-- The document that is cached. -/
def cachedDocument : Table String ν := acceptedDocument prior fetched (verdict deserialize prior fetched rules).2

/-- The refusal of a model, from the raw documents. -/
def refusedAs (m : String) : Option Refusal :=
  ((parse deserialize fetched).entries.get? m).bind (refusalOf (parse deserialize prior) rules m)

/-- A refused model has the prior entry where that is a price, and none where it is not; every
other is as fetched. -/
theorem get?_cachedDocument (m : String) :
    (cachedDocument deserialize prior fetched rules).get? m =
      if (refusedAs deserialize prior fetched rules m).isSome then
        (prior.get? m).filter fun _ => (usable (parse deserialize prior) m).isSome
      else fetched.get? m := by
  have hspliced : ∀ r ∈ (verdict deserialize prior fetched rules).2,
      ((prior.get? r.model).filter fun _ => !r.isAdmission) =
        (prior.get? r.model).filter fun _ => (usable (parse deserialize prior) r.model).isSome := by
    intro r hr
    obtain ⟨proposed, _, hr⟩ := (mem_refusals ..).1 hr
    rw [(refusalOf_eq_some hr).2]
    simp
  rw [cachedDocument, get?_acceptedDocument
    (fun m => (prior.get? m).filter fun _ => (usable (parse deserialize prior) m).isSome) hspliced]
  have hmem : m ∈ (verdict deserialize prior fetched rules).2.map Refusal.model ↔
      (refusedAs deserialize prior fetched rules m).isSome = true := by
    rw [verdict, mem_refused, Option.isSome_iff_exists]
    rfl
  simp only [hmem]

theorem get?_parse_cachedDocument (m : String) :
    (parse deserialize (cachedDocument deserialize prior fetched rules)).entries.get? m =
      (verdict deserialize prior fetched rules).1.entries.get? m := by
  rw [get?_parse, get?_cachedDocument, verdict, get?_accept]
  cases hrefusal : refusedAs deserialize prior fetched rules m with
  | some refusal =>
    obtain ⟨proposed, hcand, hr⟩ := Option.bind_eq_some_iff.1 hrefusal
    rw [hcand, Option.bind_some, settled_refused hr, Option.isSome_some, if_pos rfl]
    cases husable : usable (parse deserialize prior) m with
    | none => simp
    | some previous =>
      obtain ⟨value, hvalue, hread⟩ := Option.bind_eq_some_iff.1
        ((get?_parse deserialize prior m).symm.trans (usable_eq_some.1 husable).1)
      rw [hvalue]
      exact hread
  | none =>
    rw [Option.isSome_none, if_neg Bool.false_ne_true, ← get?_parse]
    cases hcand : (parse deserialize fetched).entries.get? m with
    | none => rfl
    | some proposed =>
      rw [refusedAs, hcand, Option.bind_some] at hrefusal
      exact (settled_passed hrefusal).symm

theorem usable_cachedDocument {m : String} {refusal : Refusal}
    (h : refusedAs deserialize prior fetched rules m = some refusal) :
    usable (parse deserialize (cachedDocument deserialize prior fetched rules)) m =
      usable (parse deserialize prior) m := by
  obtain ⟨proposed, hcand, hr⟩ := Option.bind_eq_some_iff.1 h
  have hcached := get?_parse_cachedDocument deserialize prior fetched rules m
  rw [verdict, get?_accept, hcand, Option.bind_some, settled_refused hr] at hcached
  rw [usable, hcached]
  cases hprior : usable (parse deserialize prior) m with
  | none => rfl
  | some previous =>
    rw [Option.filter_some, if_pos]
    rw [judgeAdmission_eq_none.2 (usable_eq_some.1 hprior).2]
    rfl

/-- A refused model is judged against the same price again; one that passed is now its own
prior. -/
theorem refusedAs_cachedDocument (m : String) :
    refusedAs deserialize (cachedDocument deserialize prior fetched rules) fetched rules m =
      refusedAs deserialize prior fetched rules m := by
  unfold refusedAs
  cases hcand : (parse deserialize fetched).entries.get? m with
  | none => rfl
  | some proposed =>
    rw [Option.bind_some, Option.bind_some]
    cases hrefusal : refusalOf (parse deserialize prior) rules m proposed with
    | some refusal =>
      have hrefused : refusedAs deserialize prior fetched rules m = some refusal := by
        rw [refusedAs, hcand]
        exact hrefusal
      rw [refusalOf, usable_cachedDocument deserialize prior fetched rules hrefused]
      exact hrefusal
    | none =>
      have hcached := get?_parse_cachedDocument deserialize prior fetched rules m
      rw [verdict, get?_accept, hcand, Option.bind_some, settled_passed hrefusal] at hcached
      have hpos : Plausible proposed := plausible_of_settled (settled_passed hrefusal)
      rw [refusalOf, usable_eq_some.2 ⟨hcached, hpos⟩]
      exact judgeChange_self hpos

/-- **The cached document is the accepted table.**  It reads as the accepted prices, and the
same fetched document judged against it gives the same prices, the same refusals and the same
document. -/
theorem cached_document_settled :
    (∀ m, (parse deserialize (cachedDocument deserialize prior fetched rules)).entries.get? m =
      (verdict deserialize prior fetched rules).1.entries.get? m) ∧
    (∀ m, (verdict deserialize (cachedDocument deserialize prior fetched rules) fetched rules).1.entries.get? m =
      (verdict deserialize prior fetched rules).1.entries.get? m) ∧
    ((verdict deserialize (cachedDocument deserialize prior fetched rules) fetched rules).2.map fun r =>
        (r.model, r.disposition)) =
      ((verdict deserialize prior fetched rules).2.map fun r => (r.model, r.disposition)) ∧
    ∀ m, (cachedDocument deserialize (cachedDocument deserialize prior fetched rules) fetched rules).get? m =
      (cachedDocument deserialize prior fetched rules).get? m := by
  have hrefusals : (verdict deserialize (cachedDocument deserialize prior fetched rules) fetched rules).2 =
      (verdict deserialize prior fetched rules).2 := by
    rw [verdict, (accept_judged ..).2, verdict, (accept_judged ..).2]
    refine congrArg _ (List.flatMap_congr fun m _ => ?_)
    exact congrArg Option.toList (refusedAs_cachedDocument deserialize prior fetched rules m)
  have hdocument : ∀ m, (cachedDocument deserialize (cachedDocument deserialize prior fetched rules) fetched rules).get? m =
      (cachedDocument deserialize prior fetched rules).get? m := by
    intro m
    rw [get?_cachedDocument, refusedAs_cachedDocument, get?_cachedDocument]
    cases hrefusal : refusedAs deserialize prior fetched rules m with
    | none => rfl
    | some refusal =>
      rw [Option.isSome_some, if_pos rfl, if_pos rfl, usable_cachedDocument deserialize prior fetched rules hrefusal,
        Option.filter_filter]
      simp only [Bool.and_self]
  have hparse : ∀ m, (parse deserialize (cachedDocument deserialize prior fetched rules)).entries.get? m =
      (verdict deserialize prior fetched rules).1.entries.get? m :=
    get?_parse_cachedDocument deserialize prior fetched rules
  refine ⟨hparse, fun m => ?_, by rw [hrefusals], hdocument⟩
  rw [← get?_parse_cachedDocument, get?_parse, hdocument, ← get?_parse]
  exact hparse m

end Cached

end FactorQ.Pricing
