/-
# `FactorQ.Pricing.Accept` — what is accepted from a fetched price list

A fetched document is judged model by model against the last accepted one.  A model the last
one prices may move each of its prices by the drift ratio and no further, or it keeps its old
entry whole; a model it does not price is admitted when every price it reports is positive.
A price of zero in the last document is no price, and its model is judged as a new one.

`accept` decides on prices; what is cached is a document, the fetched one with the refused
entries taken from the last or taken out.  That the two say the same is
`acceptedDocument_agrees`.

Prices are exact: rationals for the floats of the source.
-/
import FactorQ.Lib.Table

namespace FactorQ.Pricing

open Lib

/-! ## Prices -/

structure ModelPricing where
  inputPerMillion : ℚ
  outputPerMillion : ℚ
  cacheReadPerMillion : Option ℚ
  cacheWritePerMillion : Option ℚ
  cacheWrite1hPerMillion : Option ℚ
deriving DecidableEq

inductive PriceField where
  | input
  | output
  | cacheRead
  | cacheWrite
  | cacheWrite1h
deriving DecidableEq

namespace PriceField

def asStr : PriceField → String
  | input => "input_cost_per_token"
  | output => "output_cost_per_token"
  | cacheRead => "cache_read_input_token_cost"
  | cacheWrite => "cache_creation_input_token_cost"
  | cacheWrite1h => "cache_creation_input_token_cost_above_1hr"

/-- The order fields are judged in. -/
def order : List PriceField := [input, output, cacheRead, cacheWrite, cacheWrite1h]

theorem mem_order (field : PriceField) : field ∈ order := by
  cases field <;> decide

def perMillion (field : PriceField) (pricing : ModelPricing) : Option ℚ :=
  match field with
  | input => some pricing.inputPerMillion
  | output => some pricing.outputPerMillion
  | cacheRead => pricing.cacheReadPerMillion
  | cacheWrite => pricing.cacheWritePerMillion
  | cacheWrite1h => pricing.cacheWrite1hPerMillion

def perToken (field : PriceField) (pricing : ModelPricing) : Option ℚ :=
  (field.perMillion pricing).map (· / 1000000)

end PriceField

/-- What each model costs, and how long a prompt it takes. -/
structure PricingTable where
  entries : Table String ModelPricing
  contextWindows : Table String Nat

/-! ## Documents -/

/-- One entry of the document; the prices are per token. -/
structure LiteLlmEntry where
  inputCostPerToken : Option ℚ
  maxInputTokens : Option Nat
  outputCostPerToken : Option ℚ
  cacheReadInputTokenCost : Option ℚ
  cacheCreationInputTokenCost : Option ℚ
  cacheCreationInputTokenCostAbove1hr : Option ℚ
deriving DecidableEq

/-- A document lists entries by model; `none` is one that does not deserialize. -/
abbrev Document := Table String (Option LiteLlmEntry)

/-- The prices of an entry that states the two every model must have. -/
def LiteLlmEntry.pricing (entry : LiteLlmEntry) : Option ModelPricing :=
  match entry.inputCostPerToken, entry.outputCostPerToken with
  | some input, some output => some {
      inputPerMillion := input * 1000000
      outputPerMillion := output * 1000000
      cacheReadPerMillion := entry.cacheReadInputTokenCost.map (· * 1000000)
      cacheWritePerMillion := entry.cacheCreationInputTokenCost.map (· * 1000000)
      cacheWrite1hPerMillion := entry.cacheCreationInputTokenCostAbove1hr.map (· * 1000000) }
  | _, _ => none

/-- What is read off one line of the document; its template line is passed over. -/
def readEntry {μ : Type} (read : LiteLlmEntry → Option μ) (model : String) (value : Option LiteLlmEntry) : Option μ :=
  if model = "sample_spec" then none else value.bind read

def PricingTable.fromLitellmDocument (raw : Document) : PricingTable where
  entries := raw.filterMap (readEntry LiteLlmEntry.pricing)
  contextWindows := raw.filterMap (readEntry LiteLlmEntry.maxInputTokens)

open PricingTable (fromLitellmDocument)

theorem get?_fromLitellmDocument (raw : Document) (model : String) :
    (fromLitellmDocument raw).entries.get? model = (raw.get? model).bind (readEntry LiteLlmEntry.pricing model) :=
  Table.get?_filterMap ..

/-! ## The judges -/

/-- The bound on a move; a configuration with a smaller one is refused. -/
structure AcceptanceRules where
  maxDriftRatio : ℚ
  one_le : 1 ≤ maxDriftRatio

inductive RefusalRule where
  | driftBound
  | zeroPrice
deriving DecidableEq

def RefusalRule.asStr : RefusalRule → String
  | driftBound => "drift_bound"
  | zeroPrice => "zero_price"

/-- What became of the model. -/
inductive Disposition where
  | keptPriorPrice
  | notAdmitted
deriving DecidableEq

/-- One model's proposed change, refused; prices are per token. -/
structure Refusal where
  model : String
  field : PriceField
  old : Option ℚ
  new : ℚ
  ratio : Option ℚ
  rule : RefusalRule
  disposition : Disposition
deriving DecidableEq

def Refusal.isAdmission (refusal : Refusal) : Bool := refusal.disposition = .notAdmitted

def isPositive (price : ℚ) : Bool := 0 < price

/-- The larger of the two ratios between a price and the one it replaces. -/
def driftRatio (new old : ℚ) : ℚ := max (new / old) (old / new)

/-- One turn of the loop over the fields. -/
def judgeField (model : String) (previous proposed : ModelPricing) (rules : AcceptanceRules) (field : PriceField) :
    Option Refusal :=
  let refusal := fun (rule : RefusalRule) (ratio : Option ℚ) => some (Refusal.mk model field
    (field.perToken previous) ((field.perToken proposed).getD 0) ratio rule .keptPriorPrice)
  match field.perMillion proposed, field.perMillion previous with
  | some new, some old =>
    if ¬ isPositive new then refusal .zeroPrice none
    else if ¬ isPositive old then refusal .driftBound none
    else if driftRatio new old > rules.maxDriftRatio then refusal .driftBound (some (driftRatio new old))
    else none
  -- a cache rate that is newly published
  | some new, none => if ¬ isPositive new then refusal .zeroPrice none else none
  | none, _ => none

/-- A model that was priced before. -/
def judgeChange (model : String) (previous proposed : ModelPricing) (rules : AcceptanceRules) : Option Refusal :=
  PriceField.order.findSome? (judgeField model previous proposed rules)

/-- A model with no usable price before. -/
def judgeAdmission (model : String) (proposed : ModelPricing) : Option Refusal :=
  PriceField.order.findSome? fun field =>
    match field.perToken proposed with
    | none => none
    | some price =>
      if isPositive price then none
      else some ⟨model, field, none, price, none, .zeroPrice, .notAdmitted⟩

/-- The prior entry of a model, when it is a price to judge a change against. -/
def usable (prior : PricingTable) (model : String) : Option ModelPricing :=
  (prior.entries.get? model).filter fun previous => (judgeAdmission model previous).isNone

/-- One turn of the loop over the models. -/
def judge (prior : PricingTable) (rules : AcceptanceRules) (acc : Table String ModelPricing × List Refusal)
    (model : String) : Table String ModelPricing × List Refusal :=
  match acc.1.get? model with
  | none => acc
  | some proposed =>
    match usable prior model with
    | some previous =>
      match judgeChange model previous proposed rules with
      | some refusal => (acc.1.set model previous, acc.2 ++ [refusal])
      | none => acc
    | none =>
      match judgeAdmission model proposed with
      | some refusal => (acc.1.erase model, acc.2 ++ [refusal])
      | none => acc

/-- The candidate, repaired, and what was refused. -/
def accept (prior candidate : PricingTable) (rules : AcceptanceRules) : PricingTable × List Refusal :=
  let models := (candidate.entries.rows.map Prod.fst).insertionSort (· ≤ ·)
  let judged := models.foldl (judge prior rules) (candidate.entries, [])
  ({ candidate with entries := judged.1 }, judged.2)

/-- The fetched document with each refused entry taken from the prior one, or taken out. -/
def acceptedDocument {ν : Type} (prior fetched : Table String ν) (refusals : List Refusal) : Table String ν :=
  refusals.foldl (fun document refusal =>
    match (prior.get? refusal.model).filter fun _ => !refusal.isAdmission with
    | some entry => document.set refusal.model entry
    | none => document.erase refusal.model) fetched

/-! ## What the judges say -/

/-- Every price a model reports is positive. -/
def Plausible (pricing : ModelPricing) : Prop :=
  ∀ field price, PriceField.perMillion field pricing = some price → 0 < price

variable {model : String}

theorem judgeAdmission_eq_none {pricing : ModelPricing} :
    judgeAdmission model pricing = none ↔ Plausible pricing := by
  rw [judgeAdmission, List.findSome?_eq_none_iff]
  constructor
  · intro h field price hprice
    have := h field (PriceField.mem_order field)
    simp only [PriceField.perToken, hprice, Option.map_some, isPositive] at this
    by_contra hneg
    have hdiv : ¬ 0 < price / 1000000 := fun hpos => hneg (by linarith)
    simp [hdiv] at this
  · intro h field _
    cases hprice : field.perMillion pricing with
    | none => simp [PriceField.perToken, hprice]
    | some price =>
      have : 0 < price / 1000000 := by
        have := h field price hprice
        positivity
      simp [PriceField.perToken, hprice, isPositive, this]

/-- No price that is there before and after moves further than the ratio. -/
def Within (rules : AcceptanceRules) (previous proposed : ModelPricing) : Prop :=
  ∀ field old new, PriceField.perMillion field previous = some old →
    PriceField.perMillion field proposed = some new → driftRatio new old ≤ rules.maxDriftRatio

theorem Within.refl (rules : AcceptanceRules) {pricing : ModelPricing} (h : Plausible pricing) :
    Within rules pricing pricing := by
  intro field old new hold hnew
  obtain rfl : old = new := Option.some.inj (hold.symm.trans hnew)
  have hpos := h field old hold
  rw [driftRatio, max_self, div_self hpos.ne']
  exact rules.one_le

/-- A change that passes is within the bound and leaves a plausible entry. -/
theorem judgeChange_eq_none {previous proposed : ModelPricing} {rules : AcceptanceRules}
    (h : judgeChange model previous proposed rules = none) :
    Within rules previous proposed ∧ Plausible proposed := by
  rw [judgeChange, List.findSome?_eq_none_iff] at h
  constructor
  · intro field old new hold hnew
    have hfield := h field (PriceField.mem_order field)
    simp only [judgeField, hold, hnew] at hfield
    split at hfield
    next => exact nomatch hfield
    next =>
      split at hfield
      next => exact nomatch hfield
      next =>
        split at hfield
        next => exact nomatch hfield
        next hin => exact not_lt.1 hin
  · intro field new hnew
    have hfield := h field (PriceField.mem_order field)
    by_contra hneg
    have hpos : isPositive new = false := by simpa [isPositive] using hneg
    cases hold : field.perMillion previous with
    | none => simp [judgeField, hold, hnew, hpos] at hfield
    | some old => simp [judgeField, hold, hnew, hpos] at hfield

variable {refusal : Refusal}

theorem judgeChange_refusal {previous proposed : ModelPricing} {rules : AcceptanceRules}
    (h : judgeChange model previous proposed rules = some refusal) :
    refusal.model = model ∧ refusal.isAdmission = false := by
  obtain ⟨field, _, hfield⟩ := List.exists_of_findSome?_eq_some h
  have hmade : ∃ old new ratio rule, Refusal.mk model field old new ratio rule .keptPriorPrice = refusal := by
    unfold judgeField at hfield
    dsimp only at hfield
    split at hfield
    next =>
      split at hfield
      next => exact ⟨_, _, _, _, Option.some.inj hfield⟩
      next =>
        split at hfield
        next => exact ⟨_, _, _, _, Option.some.inj hfield⟩
        next =>
          split at hfield
          next => exact ⟨_, _, _, _, Option.some.inj hfield⟩
          next => exact nomatch hfield
    next =>
      split at hfield
      next => exact ⟨_, _, _, _, Option.some.inj hfield⟩
      next => exact nomatch hfield
    next => exact nomatch hfield
  obtain ⟨_, _, _, _, rfl⟩ := hmade
  exact ⟨rfl, rfl⟩

variable {proposed : ModelPricing}

theorem judgeAdmission_refusal (h : judgeAdmission model proposed = some refusal) :
    refusal.model = model ∧ refusal.isAdmission = true := by
  obtain ⟨field, _, hfield⟩ := List.exists_of_findSome?_eq_some h
  split at hfield
  next => exact nomatch hfield
  next =>
    split at hfield
    next => exact nomatch hfield
    next =>
      obtain rfl := Option.some.inj hfield
      exact ⟨rfl, rfl⟩

/-! ## What is accepted, model by model -/

section Accepted

variable (prior : PricingTable) (rules : AcceptanceRules)

/-- The refusal of a model, if there is one. -/
def refusalOf (model : String) (proposed : ModelPricing) : Option Refusal :=
  match usable prior model with
  | some previous => judgeChange model previous proposed rules
  | none => judgeAdmission model proposed

/-- What is accepted for a model. -/
def settled (model : String) (proposed : ModelPricing) : Option ModelPricing :=
  if (refusalOf prior rules model proposed).isSome then usable prior model else some proposed

variable {prior rules}

theorem usable_eq_some {previous : ModelPricing} :
    usable prior model = some previous ↔ prior.entries.get? model = some previous ∧ Plausible previous := by
  rw [usable, Option.filter_eq_some_iff, Option.isNone_iff_eq_none, judgeAdmission_eq_none]

theorem refusalOf_eq_some (h : refusalOf prior rules model proposed = some refusal) :
    refusal.model = model ∧ refusal.isAdmission = (usable prior model).isNone := by
  unfold refusalOf at h
  split at h
  next previous husable =>
    obtain ⟨hmodel, hadm⟩ := judgeChange_refusal h
    exact ⟨hmodel, by rw [hadm, husable]; rfl⟩
  next husable =>
    obtain ⟨hmodel, hadm⟩ := judgeAdmission_refusal h
    exact ⟨hmodel, by rw [hadm, husable]; rfl⟩

theorem settled_refused (h : refusalOf prior rules model proposed = some refusal) :
    settled prior rules model proposed = usable prior model := by
  rw [settled, h]
  rfl

theorem settled_passed (h : refusalOf prior rules model proposed = none) :
    settled prior rules model proposed = some proposed := by
  rw [settled, h]
  rfl

theorem plausible_of_settled {proposed pricing : ModelPricing}
    (h : settled prior rules model proposed = some pricing) : Plausible pricing := by
  cases hrefusal : refusalOf prior rules model proposed with
  | some refusal =>
    rw [settled_refused hrefusal] at h
    exact (usable_eq_some.1 h).2
  | none =>
    rw [settled_passed hrefusal] at h
    obtain rfl := Option.some.inj h
    rw [refusalOf] at hrefusal
    split at hrefusal
    next => exact (judgeChange_eq_none hrefusal).2
    next => exact judgeAdmission_eq_none.1 hrefusal

theorem settled_within {previous proposed pricing : ModelPricing}
    (hprior : prior.entries.get? model = some previous) (hpos : Plausible previous)
    (h : settled prior rules model proposed = some pricing) : Within rules previous pricing := by
  have husable : usable prior model = some previous := usable_eq_some.2 ⟨hprior, hpos⟩
  cases hrefusal : refusalOf prior rules model proposed with
  | some refusal =>
    rw [settled_refused hrefusal] at h
    obtain rfl : previous = pricing := Option.some.inj (husable.symm.trans h)
    exact .refl rules hpos
  | none =>
    rw [settled_passed hrefusal] at h
    obtain rfl := Option.some.inj h
    rw [refusalOf, husable] at hrefusal
    exact (judgeChange_eq_none hrefusal).1

/-- A model that passes is left alone, one that is refused has its usable price or none. -/
theorem judge_eq (acc : Table String ModelPricing × List Refusal) (h : acc.1.get? model = some proposed) :
    judge prior rules acc model =
      match refusalOf prior rules model proposed with
      | none => acc
      | some refusal =>
        (match usable prior model with
        | some previous => acc.1.set model previous
        | none => acc.1.erase model, acc.2 ++ [refusal]) := by
  unfold judge refusalOf
  rw [h]
  cases usable prior model with
  | some previous =>
    dsimp only
    cases judgeChange model previous proposed rules <;> rfl
  | none =>
    dsimp only
    cases judgeAdmission model proposed <;> rfl

/-- One turn of the loop settles its own model and touches no other. -/
theorem judge_spec (acc : Table String ModelPricing × List Refusal) (h : acc.1.get? model = some proposed) :
    (∀ m, (judge prior rules acc model).1.get? m =
      if m = model then settled prior rules model proposed else acc.1.get? m) ∧
      (judge prior rules acc model).2 = acc.2 ++ (refusalOf prior rules model proposed).toList := by
  rw [judge_eq acc h]
  cases hrefusal : refusalOf prior rules model proposed with
  | none =>
    rw [settled_passed hrefusal]
    refine ⟨fun m => ?_, (List.append_nil _).symm⟩
    by_cases e : m = model
    · rw [if_pos e, e]
      exact h
    · rw [if_neg e]
  | some refusal =>
    rw [settled_refused hrefusal]
    cases usable prior model with
    | some previous => exact ⟨fun m => Table.get?_set .., rfl⟩
    | none => exact ⟨fun m => Table.get?_erase .., rfl⟩

variable (prior rules)

/-- The loop, over models that are all in the candidate and not yet judged. -/
theorem foldl_judge (candidate : Table String ModelPricing) (models : List String) (hnd : models.Nodup)
    (hsome : ∀ m ∈ models, (candidate.get? m).isSome) (acc : Table String ModelPricing × List Refusal)
    (hacc : ∀ m ∈ models, acc.1.get? m = candidate.get? m) :
    (∀ m, (models.foldl (judge prior rules) acc).1.get? m =
      if m ∈ models then (candidate.get? m).bind (settled prior rules m) else acc.1.get? m) ∧
    (models.foldl (judge prior rules) acc).2 =
      acc.2 ++ models.flatMap fun m => ((candidate.get? m).bind (refusalOf prior rules m)).toList := by
  induction models generalizing acc with
  | nil => exact ⟨fun _ => rfl, (List.append_nil _).symm⟩
  | cons model models ih =>
    obtain ⟨hnew, hnd⟩ := List.nodup_cons.1 hnd
    obtain ⟨proposed, hprop⟩ := Option.isSome_iff_exists.1 (hsome model List.mem_cons_self)
    have hget : acc.1.get? model = some proposed := (hacc model List.mem_cons_self).trans hprop
    obtain ⟨hentries, hrefusals⟩ : _ ∧ (judge prior rules acc model).2 = _ := judge_spec acc hget
    have hothers : ∀ m ∈ models, (judge prior rules acc model).1.get? m = candidate.get? m := by
      intro m hm
      have hne : m ≠ model := fun e => hnew (e ▸ hm)
      rw [hentries, if_neg hne]
      exact hacc m (List.mem_cons_of_mem _ hm)
    obtain ⟨hrest, hrestR⟩ := ih hnd (fun m hm => hsome m (List.mem_cons_of_mem _ hm)) _ hothers
    constructor
    · intro m
      rw [List.foldl_cons, hrest, hentries]
      by_cases e : m = model
      · subst e
        rw [if_neg hnew, if_pos rfl, if_pos List.mem_cons_self, hprop]
        rfl
      · simp only [List.mem_cons, e, false_or, if_false]
    · rw [List.foldl_cons, hrestR, hrefusals, List.flatMap_cons, hprop, List.append_assoc]
      rfl

section Spec

variable (candidate : PricingTable)

theorem mem_models (m : String) :
    m ∈ (candidate.entries.rows.map Prod.fst).insertionSort (· ≤ ·) ↔ (candidate.entries.get? m).isSome := by
  rw [List.mem_insertionSort, ← Option.ne_none_iff_isSome, Ne, Table.get?_eq_none, not_not]

theorem accept_judged :
    (∀ m, (accept prior candidate rules).1.entries.get? m =
      if m ∈ (candidate.entries.rows.map Prod.fst).insertionSort (· ≤ ·) then
        (candidate.entries.get? m).bind (settled prior rules m) else candidate.entries.get? m) ∧
    (accept prior candidate rules).2 =
      [] ++ ((candidate.entries.rows.map Prod.fst).insertionSort (· ≤ ·)).flatMap fun m =>
        ((candidate.entries.get? m).bind (refusalOf prior rules m)).toList := by
  refine foldl_judge prior rules candidate.entries _ ?_ (fun m hm => (mem_models candidate m).1 hm) _ fun _ _ => rfl
  exact (List.perm_insertionSort _ _).nodup_iff.2 candidate.entries.nodup

theorem get?_accept (m : String) :
    (accept prior candidate rules).1.entries.get? m =
      (candidate.entries.get? m).bind (settled prior rules m) := by
  rw [(accept_judged prior rules candidate).1]
  split
  next => rfl
  next hm =>
    rw [mem_models, Option.not_isSome_iff_eq_none] at hm
    rw [hm]
    rfl

theorem mem_refusals :
    refusal ∈ (accept prior candidate rules).2 ↔
      ∃ proposed, candidate.entries.get? refusal.model = some proposed ∧
        refusalOf prior rules refusal.model proposed = some refusal := by
  rw [(accept_judged prior rules candidate).2, List.nil_append, List.mem_flatMap]
  constructor
  · rintro ⟨m, _, hr⟩
    rw [Option.mem_toList, Option.bind_eq_some_iff] at hr
    obtain ⟨proposed, hprop, hr⟩ := hr
    obtain rfl := (refusalOf_eq_some hr).1
    exact ⟨proposed, hprop, hr⟩
  · rintro ⟨proposed, hprop, hr⟩
    refine ⟨refusal.model, (mem_models candidate _).2 (by rw [hprop]; rfl), ?_⟩
    rw [Option.mem_toList, hprop]
    exact hr

theorem mem_refused {m : String} :
    m ∈ (accept prior candidate rules).2.map Refusal.model ↔
      ∃ refusal, (candidate.entries.get? m).bind (refusalOf prior rules m) = some refusal := by
  rw [List.mem_map]
  constructor
  · rintro ⟨refusal, hr, rfl⟩
    obtain ⟨proposed, hprop, hr⟩ := (mem_refusals prior rules candidate).1 hr
    exact ⟨refusal, Option.bind_eq_some_iff.2 ⟨proposed, hprop, hr⟩⟩
  · rintro ⟨refusal, hr⟩
    obtain ⟨proposed, hprop, hr⟩ := Option.bind_eq_some_iff.1 hr
    obtain rfl := (refusalOf_eq_some hr).1
    exact ⟨refusal, (mem_refusals prior rules candidate).2 ⟨proposed, hprop, hr⟩, rfl⟩

end Spec

end Accepted

/-! ## The document says what the table says -/

/-- Where every refusal of a model comes to the same, the splice is that. -/
theorem get?_acceptedDocument {ν : Type} {prior : Table String ν} (spliced : String → Option ν)
    {refusals : List Refusal}
    (h : ∀ r ∈ refusals, ((prior.get? r.model).filter fun _ => !r.isAdmission) = spliced r.model)
    (fetched : Table String ν) (m : String) :
    (acceptedDocument prior fetched refusals).get? m =
      if m ∈ refusals.map Refusal.model then spliced m else fetched.get? m := by
  unfold acceptedDocument
  induction refusals generalizing fetched with
  | nil => rfl
  | cons r refusals ih =>
    have hr := h r List.mem_cons_self
    rw [List.foldl_cons, ih (fun r hr => h r (List.mem_cons_of_mem _ hr)), List.map_cons]
    by_cases hm : m ∈ refusals.map Refusal.model
    · rw [if_pos hm, if_pos (List.mem_cons_of_mem _ hm)]
    · rw [if_neg hm]
      by_cases e : m = r.model
      · subst e
        rw [if_pos List.mem_cons_self, ← hr]
        split
        next entry hentry => rw [Table.get?_set, if_pos rfl, hentry]
        next hentry => rw [Table.get?_erase, if_pos rfl, hentry]
      · rw [if_neg (fun hmem => (List.mem_cons.1 hmem).elim e hm)]
        split
        next => rw [Table.get?_set, if_neg e]
        next => rw [Table.get?_erase, if_neg e]

/-- A prior entry that is spliced in reads as the usable price it was. -/
theorem read_spliced (prior : Document) (m : String) :
    ((prior.get? m).filter fun _ => (usable (fromLitellmDocument prior) m).isSome).bind
      (readEntry LiteLlmEntry.pricing m) = usable (fromLitellmDocument prior) m := by
  cases husable : usable (fromLitellmDocument prior) m with
  | none => simp
  | some previous =>
    obtain ⟨entry, hentry, hread⟩ := Option.bind_eq_some_iff.1
      ((get?_fromLitellmDocument prior m).symm.trans (usable_eq_some.1 husable).1)
    rw [hentry]
    exact hread

theorem acceptedDocument_agrees (prior fetched : Document) (rules : AcceptanceRules) (m : String) :
    (fromLitellmDocument (acceptedDocument prior fetched
      (accept (fromLitellmDocument prior) (fromLitellmDocument fetched) rules).2)).entries.get? m =
    (accept (fromLitellmDocument prior) (fromLitellmDocument fetched) rules).1.entries.get? m := by
  have hspliced : ∀ r ∈ (accept (fromLitellmDocument prior) (fromLitellmDocument fetched) rules).2,
      ((prior.get? r.model).filter fun _ => !r.isAdmission) =
        (prior.get? r.model).filter fun _ => (usable (fromLitellmDocument prior) r.model).isSome := by
    intro r hr
    obtain ⟨proposed, _, hr⟩ := (mem_refusals ..).1 hr
    rw [(refusalOf_eq_some hr).2]
    simp
  rw [get?_fromLitellmDocument, get?_accept, get?_acceptedDocument
    (fun m => (prior.get? m).filter fun _ => (usable (fromLitellmDocument prior) m).isSome) hspliced]
  cases hrefusal : ((fromLitellmDocument fetched).entries.get? m).bind (refusalOf (fromLitellmDocument prior) rules m) with
  | some refusal =>
    obtain ⟨proposed, hcand, hr⟩ := Option.bind_eq_some_iff.1 hrefusal
    rw [if_pos ((mem_refused ..).2 ⟨refusal, hrefusal⟩), hcand, Option.bind_some, settled_refused hr]
    exact read_spliced prior m
  | none =>
    have hnot : m ∉ (accept (fromLitellmDocument prior) (fromLitellmDocument fetched) rules).2.map Refusal.model := by
      intro hm
      obtain ⟨refusal, hr⟩ := (mem_refused ..).1 hm
      exact nomatch hrefusal.symm.trans hr
    rw [if_neg hnot, ← get?_fromLitellmDocument]
    cases hcand : (fromLitellmDocument fetched).entries.get? m with
    | none => rfl
    | some proposed =>
      rw [hcand, Option.bind_some] at hrefusal
      exact (settled_passed hrefusal).symm

theorem accept_plausible (prior candidate : PricingTable) (rules : AcceptanceRules) :
    (accept prior candidate rules).1.entries.All fun _ pricing => Plausible pricing := by
  intro m pricing hm
  rw [get?_accept] at hm
  obtain ⟨proposed, _, hm⟩ := Option.bind_eq_some_iff.1 hm
  exact plausible_of_settled hm

end FactorQ.Pricing
