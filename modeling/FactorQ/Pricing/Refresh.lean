/-
# `FactorQ.Pricing.Refresh` — the served prices over a run of refreshes

A daemon serves one price list and judges fetched documents against another.  It serves the
widen-only merge of everything accepted since it started, with the configured prices laid over
it; it judges against the document accepted last, which is in the cache.  A model both hold
has one price in both, and its price is bounded.  A model that a document dropped is still
served and no longer cached: when a later document lists it again it is judged as a new one,
against nothing.
-/
import FactorQ.Pricing.Accept

namespace FactorQ.Pricing

open Lib
open PricingTable (fromLitellmDocument)

/-! ## One load -/

/-- A document, or why there is none: the fetch failed or its body is malformed. -/
abbrev Fetched := Except String Document

structure AcceptedLoad where
  table : PricingTable
  refusals : List Refusal
  fetchError : Option String

/-- Accept what was fetched against the cached document; what is cached afterwards comes with
the load. -/
def settle (rules : AcceptanceRules) (cached : Option Document) (fetched : Fetched) : AcceptedLoad × Option Document :=
  let priorDocument := cached.getD Table.empty
  let prior := fromLitellmDocument priorDocument
  match fetched with
  -- `last_known_good`
  | .error reason => (⟨prior, [], some reason⟩, cached)
  | .ok document =>
    let judged := accept prior (fromLitellmDocument document) rules
    (⟨judged.1, judged.2, none⟩, some (acceptedDocument priorDocument document judged.2))

/-- The prices in the cache. -/
def cachedTable (cached : Option Document) : PricingTable := fromLitellmDocument (cached.getD Table.empty)

def AllPlausible (table : PricingTable) : Prop := table.entries.All fun _ pricing => Plausible pricing

section Settle

variable (rules : AcceptanceRules) (cached : Option Document) (fetched : Fetched)

theorem get?_cachedTable_settle (m : String) :
    (cachedTable (settle rules cached fetched).2).entries.get? m = (settle rules cached fetched).1.table.entries.get? m := by
  cases fetched with
  | error reason => rfl
  | ok document => exact acceptedDocument_agrees (cached.getD Table.empty) document rules m

theorem settle_plausible (h : ∀ reason, fetched = .error reason → AllPlausible (cachedTable cached)) :
    AllPlausible (settle rules cached fetched).1.table := by
  cases fetched with
  | error reason => exact h reason rfl
  | ok document => exact accept_plausible (cachedTable cached) (fromLitellmDocument document) rules

variable {rules cached fetched}

theorem settle_within (h : AllPlausible (cachedTable cached)) {m : String} {old new : ModelPricing}
    (hold : (cachedTable cached).entries.get? m = some old)
    (hnew : (settle rules cached fetched).1.table.entries.get? m = some new) : Within rules old new := by
  cases fetched with
  | error reason =>
    obtain rfl : old = new := Option.some.inj (hold.symm.trans hnew)
    exact .refl rules (h m old hold)
  | ok document =>
    obtain ⟨proposed, _, hsettled⟩ := Option.bind_eq_some_iff.1 ((get?_accept ..).symm.trans hnew)
    exact settled_within hold (h m old hold) hsettled

/-- A model with no price in the cache is loaded exactly when the document prices it above zero. -/
theorem settle_admitted {m : String} (hnone : (cachedTable cached).entries.get? m = none) {new : ModelPricing} :
    (settle rules cached fetched).1.table.entries.get? m = some new ↔
      ∃ document, fetched = .ok document ∧ (fromLitellmDocument document).entries.get? m = some new ∧ Plausible new := by
  cases fetched with
  | error reason =>
    constructor
    · intro hnew
      exact nomatch hnone.symm.trans hnew
    · rintro ⟨document, hdocument, _⟩
      exact nomatch hdocument
  | ok document =>
    have husable : usable (cachedTable cached) m = none := by rw [usable, hnone]; rfl
    have hload : (settle rules cached (.ok document)).1.table.entries.get? m =
        ((fromLitellmDocument document).entries.get? m).bind (settled (cachedTable cached) rules m) :=
      get?_accept ..
    rw [hload, Option.bind_eq_some_iff]
    constructor
    · rintro ⟨proposed, hprop, hsettled⟩
      have hpos : Plausible new := plausible_of_settled hsettled
      cases hrefusal : refusalOf (cachedTable cached) rules m proposed with
      | some refusal =>
        rw [settled_refused hrefusal, husable] at hsettled
        exact nomatch hsettled
      | none =>
        rw [settled_passed hrefusal] at hsettled
        obtain rfl := Option.some.inj hsettled
        exact ⟨document, rfl, hprop, hpos⟩
    · rintro ⟨_, hdocument, hprop, hpos⟩
      obtain rfl := Except.ok.inj hdocument
      refine ⟨new, hprop, settled_passed ?_⟩
      rw [refusalOf, husable]
      exact judgeAdmission_eq_none.2 hpos

end Settle

/-! ## The merge -/

/-- The prices that are not the accepted table's. -/
abbrev PricingOverlay := Table String ModelPricing

namespace PricingOverlay

/-- Lay every overlay price over the table. -/
def apply (overlay : PricingOverlay) (table : PricingTable) : PricingTable :=
  { table with entries := overlay.rows.foldl (fun entries r => entries.set r.1 r.2) table.entries }

def covers (overlay : PricingOverlay) (model : String) : Bool := (overlay.get? model).isSome

theorem get?_apply (overlay : PricingOverlay) (table : PricingTable) (m : String) :
    (overlay.apply table).entries.get? m = (overlay.get? m).or (table.entries.get? m) :=
  Table.get?_foldl_set overlay.rows overlay.nodup m table.entries

end PricingOverlay

structure RefreshReport where
  entries : Nat
  added : Nat
  changed : Nat
  refused : Nat
  notAdmitted : Nat
  held : List String
  fetchFailed : Bool

/-- The served table on its way through the loop, and how many models were added and changed. -/
structure Merging where
  entries : Table String ModelPricing
  added : Nat
  changed : Nat

/-- Whether a price moved. -/
def moved (previous proposed : ModelPricing) : Bool :=
  previous.inputPerMillion ≠ proposed.inputPerMillion
    || previous.outputPerMillion ≠ proposed.outputPerMillion
    || previous.cacheReadPerMillion ≠ proposed.cacheReadPerMillion
    || previous.cacheWritePerMillion ≠ proposed.cacheWritePerMillion
    || previous.cacheWrite1hPerMillion ≠ proposed.cacheWrite1hPerMillion

def mergeEntry (overlay : PricingOverlay) (next : Merging) (row : String × ModelPricing) : Merging :=
  if overlay.covers row.1 then next
  else
    let entries := next.entries.set row.1 row.2
    match next.entries.get? row.1 with
    | none => { next with entries, added := next.added + 1 }
    | some previous => if moved previous row.2 then { next with entries, changed := next.changed + 1 } else { next with entries }

def merge (current accepted : PricingTable) (overlay : PricingOverlay) : PricingTable × RefreshReport :=
  let merged := accepted.entries.rows.foldl (mergeEntry overlay) ⟨current.entries, 0, 0⟩
  let next := overlay.apply {
    entries := merged.entries
    contextWindows := accepted.contextWindows.rows.foldl (fun windows r => windows.set r.1 r.2) current.contextWindows }
  let held := (current.entries.rows.map Prod.fst).filter fun model =>
    (accepted.entries.get? model).isNone && !overlay.covers model
  (next, {
    entries := next.entries.rows.length
    added := merged.added
    changed := merged.changed
    refused := 0
    notAdmitted := 0
    held
    fetchFailed := false })

theorem mergeEntry_entries (overlay : PricingOverlay) (next : Merging) (row : String × ModelPricing) :
    (mergeEntry overlay next row).entries = if overlay.covers row.1 then next.entries else next.entries.set row.1 row.2 := by
  unfold mergeEntry
  split
  next => rfl
  next =>
    dsimp only
    split
    next => rfl
    next => split <;> rfl

theorem foldl_mergeEntry (overlay : PricingOverlay) (rows : List (String × ModelPricing)) (next : Merging) :
    (rows.foldl (mergeEntry overlay) next).entries =
      (rows.filter fun r => !overlay.covers r.1).foldl (fun entries r => entries.set r.1 r.2) next.entries := by
  induction rows generalizing next with
  | nil => rfl
  | cons row rows ih =>
    rw [List.foldl_cons, ih, mergeEntry_entries]
    by_cases h : overlay.covers row.1 = true
    · rw [if_pos h, List.filter_cons_of_neg (by simp [h])]
    · rw [if_neg h, List.filter_cons_of_pos (by simp [h]), List.foldl_cons]

/-- The overlay's price, or the accepted one, or the one there was. -/
theorem get?_merge (current accepted : PricingTable) (overlay : PricingOverlay) (m : String) :
    (merge current accepted overlay).1.entries.get? m =
      (overlay.get? m).or ((accepted.entries.get? m).or (current.entries.get? m)) := by
  rw [merge, PricingOverlay.get?_apply, foldl_mergeEntry]
  cases h : overlay.get? m with
  | some pricing => rfl
  | none =>
    have hcovers : overlay.covers m = false := by rw [PricingOverlay.covers, h]; rfl
    have hnd : ((accepted.entries.rows.filter fun r => !overlay.covers r.1).map Prod.fst).Nodup :=
      accepted.entries.nodup.sublist (List.filter_sublist.map _)
    have hfind : ((accepted.entries.rows.filter fun r => !overlay.covers r.1).find? fun r => r.1 = m) =
        accepted.entries.rows.find? fun r => r.1 = m := by
      rw [List.find?_filter]
      refine List.find?_congr fun r _ => ?_
      by_cases hr : r.1 = m
      · simp [hr, hcovers]
      · simp [hr]
    rw [Option.none_or, Option.none_or, Table.get?_foldl_set _ hnd, hfind]
    rfl

/-! ## The daemon -/

/-- The cache file and the served table, under one configuration. -/
structure Daemon where
  rules : AcceptanceRules
  overlay : PricingOverlay
  cached : Option Document
  served : PricingTable

inductive RefreshError where
  | wouldNarrow (models : List String)

/-- `PricingRefresh::run`: load, merge, swap. -/
def Daemon.run (s : Daemon) (fetched : Fetched) : Daemon × Except RefreshError RefreshReport :=
  let load := settle s.rules s.cached fetched
  let s := { s with cached := load.2 }
  let merged := merge s.served load.1.table s.overlay
  let report := { merged.2 with
    refused := load.1.refusals.countP fun r => !r.isAdmission
    notAdmitted := load.1.refusals.countP Refusal.isAdmission
    fetchFailed := load.1.fetchError.isSome }
  let unpriced := (s.served.entries.rows.map Prod.fst).filter fun model => (merged.1.entries.get? model).isNone
  if unpriced ≠ [] then (s, .error (.wouldNarrow unpriced))
  else ({ s with served := merged.1 }, .ok report)

def Daemon.refresh (s : Daemon) (fetched : Fetched) : Daemon := (s.run fetched).1

/-- The daemon as its startup load leaves it: the configured prices over the loaded table, with
the prompt lengths another catalogue gave. -/
def Daemon.boot (rules : AcceptanceRules) (overlay : PricingOverlay) (windows : Table String Nat)
    (cached : Option Document) (fetched : Fetched) : Daemon :=
  let load := settle rules cached fetched
  let table := overlay.apply load.1.table
  { rules, overlay
    cached := load.2
    served := { table with
      contextWindows := windows.rows.foldl (fun windows r => windows.set r.1 r.2) table.contextWindows } }

namespace Daemon

/-- The guard never fires: the merge starts from the served table. -/
theorem run_eq (s : Daemon) (fetched : Fetched) : ∃ report, s.run fetched =
    ({ s with
        cached := (settle s.rules s.cached fetched).2
        served := (merge s.served (settle s.rules s.cached fetched).1.table s.overlay).1 }, .ok report) := by
  have hall : ((s.served.entries.rows.map Prod.fst).filter fun model =>
      ((merge s.served (settle s.rules s.cached fetched).1.table s.overlay).1.entries.get? model).isNone) = [] := by
    refine List.filter_eq_nil_iff.2 fun m hm hnone => ?_
    rw [Option.isNone_iff_eq_none, get?_merge, Option.or_eq_none_iff, Option.or_eq_none_iff] at hnone
    exact Table.get?_eq_none.1 hnone.2.2 hm
  unfold run
  dsimp only
  rw [if_neg (not_not.2 hall)]
  exact ⟨_, rfl⟩

section Refresh

variable (s : Daemon) (fetched : Fetched)

theorem refresh_rules : (s.refresh fetched).rules = s.rules := by
  obtain ⟨report, h⟩ := s.run_eq fetched
  rw [refresh, h]

theorem refresh_overlay : (s.refresh fetched).overlay = s.overlay := by
  obtain ⟨report, h⟩ := s.run_eq fetched
  rw [refresh, h]

theorem refresh_cached : (s.refresh fetched).cached = (settle s.rules s.cached fetched).2 := by
  obtain ⟨report, h⟩ := s.run_eq fetched
  rw [refresh, h]

theorem get?_refresh (m : String) :
    (s.refresh fetched).served.entries.get? m =
      (s.overlay.get? m).or
        (((settle s.rules s.cached fetched).1.table.entries.get? m).or (s.served.entries.get? m)) := by
  obtain ⟨report, h⟩ := s.run_eq fetched
  rw [refresh, h]
  exact get?_merge ..

end Refresh

/-! ## The two price lists -/

/-- Outside the overlay, what is cached is served at the same price, and all of it is priced. -/
structure Consistent (s : Daemon) : Prop where
  cached_plausible : AllPlausible (cachedTable s.cached)
  served_plausible : ∀ m pricing, s.overlay.get? m = none → s.served.entries.get? m = some pricing → Plausible pricing
  listed : ∀ m pricing, s.overlay.get? m = none → (cachedTable s.cached).entries.get? m = some pricing →
    s.served.entries.get? m = some pricing

theorem Consistent.boot {rules : AcceptanceRules} {overlay : PricingOverlay} {windows : Table String Nat}
    {cached : Option Document} {fetched : Fetched}
    (h : ∀ reason, fetched = .error reason → AllPlausible (cachedTable cached)) :
    (boot rules overlay windows cached fetched).Consistent := by
  have hload : AllPlausible (settle rules cached fetched).1.table := settle_plausible rules cached fetched h
  have hserved : ∀ m, overlay.get? m = none → (Daemon.boot rules overlay windows cached fetched).served.entries.get? m =
      (settle rules cached fetched).1.table.entries.get? m := by
    intro m hm
    refine (PricingOverlay.get?_apply overlay _ m).trans ?_
    rw [hm]
    rfl
  refine ⟨fun m pricing hm => ?_, fun m pricing hoverlay hm => ?_, fun m pricing hoverlay hm => ?_⟩
  · exact hload m pricing ((get?_cachedTable_settle ..).symm.trans hm)
  · exact hload m pricing ((hserved m hoverlay).symm.trans hm)
  · rw [hserved m hoverlay]
    exact (get?_cachedTable_settle ..).symm.trans hm

theorem Consistent.refresh {s : Daemon} (hs : s.Consistent) (fetched : Fetched) : (s.refresh fetched).Consistent := by
  have hload : AllPlausible (settle s.rules s.cached fetched).1.table :=
    settle_plausible _ _ _ fun _ _ => hs.cached_plausible
  refine ⟨?_, fun m pricing hoverlay hm => ?_, fun m pricing hoverlay hm => ?_⟩
  · rw [refresh_cached]
    exact fun m pricing hm => hload m pricing ((get?_cachedTable_settle ..).symm.trans hm)
  · rw [refresh_overlay] at hoverlay
    rw [get?_refresh, hoverlay, Option.none_or, Option.or_eq_some_iff] at hm
    rcases hm with hm | ⟨_, hm⟩
    · exact hload m pricing hm
    · exact hs.served_plausible m pricing hoverlay hm
  · rw [refresh_overlay] at hoverlay
    rw [refresh_cached, get?_cachedTable_settle] at hm
    rw [get?_refresh, hoverlay, hm]
    rfl

/-- A run of refreshes. -/
def after (s : Daemon) (fetches : List Fetched) : Daemon := fetches.foldl refresh s

theorem Consistent.after {s : Daemon} (hs : s.Consistent) (fetches : List Fetched) : (s.after fetches).Consistent := by
  induction fetches generalizing s with
  | nil => exact hs
  | cons fetched fetches ih => exact ih (hs.refresh fetched)

theorem after_rules (s : Daemon) (fetches : List Fetched) : (s.after fetches).rules = s.rules := by
  induction fetches generalizing s with
  | nil => rfl
  | cons fetched fetches ih => exact (ih _).trans (s.refresh_rules fetched)

theorem after_overlay (s : Daemon) (fetches : List Fetched) : (s.after fetches).overlay = s.overlay := by
  induction fetches generalizing s with
  | nil => rfl
  | cons fetched fetches ih => exact (ih _).trans (s.refresh_overlay fetched)

/-! ## The bound -/

/-- The model is served, but the document accepted last does not price it. -/
def Held (s : Daemon) (m : String) : Prop :=
  s.overlay.covers m = false ∧ (cachedTable s.cached).entries.get? m = none ∧ (s.served.entries.get? m).isSome

/-- Each held model that the document lists again it lists within the ratio of the price the
model is still served at. -/
def RelistsWithin (s : Daemon) (document : Document) : Prop :=
  ∀ m old new, s.Held m → s.served.entries.get? m = some old →
    (fromLitellmDocument document).entries.get? m = some new → Plausible new → Within s.rules old new

theorem covers_eq_false {s : Daemon} {m : String} : s.overlay.covers m = false ↔ s.overlay.get? m = none := by
  rw [PricingOverlay.covers, Option.isSome_eq_false_iff, Option.isNone_iff_eq_none]

/-- One refresh: the cached prices are bounded, the held ones as far as the document bounds them. -/
theorem refresh_within {s : Daemon} (hs : s.Consistent) (fetched : Fetched) :
    (∀ m old new, s.overlay.covers m = false → s.served.entries.get? m = some old →
      (s.refresh fetched).served.entries.get? m = some new → Within s.rules old new) ↔
    ∀ document, fetched = .ok document → s.RelistsWithin document := by
  constructor
  · rintro h document rfl m old new ⟨hcovers, hnone, _⟩ hold hnew hpos
    refine h m old new hcovers hold ?_
    rw [get?_refresh, covers_eq_false.1 hcovers, (settle_admitted hnone).2 ⟨document, rfl, hnew, hpos⟩]
    rfl
  · intro h m old new hcovers hold hnew
    rw [get?_refresh, covers_eq_false.1 hcovers, Option.none_or, Option.or_eq_some_iff] at hnew
    rcases hnew with hnew | ⟨_, hkept⟩
    · cases hcached : (cachedTable s.cached).entries.get? m with
      | some pricing =>
        -- the price it is judged against is the one it is served at
        have hsame := hs.listed m pricing (covers_eq_false.1 hcovers) hcached
        obtain rfl := Option.some.inj (hsame.symm.trans hold)
        exact settle_within hs.cached_plausible hcached hnew
      | none =>
        obtain ⟨document, hdocument, hlisted, hpos⟩ := (settle_admitted hcached).1 hnew
        exact h document hdocument m old new ⟨hcovers, hcached, by rw [hold]; rfl⟩ hold hlisted hpos
    · obtain rfl := Option.some.inj (hold.symm.trans hkept)
      exact .refl _ (hs.served_plausible m old (covers_eq_false.1 hcovers) hold)

theorem refresh_keeps_price (s : Daemon) (fetched : Fetched) {m : String} (h : (s.served.entries.get? m).isSome) :
    ((s.refresh fetched).served.entries.get? m).isSome := by
  rw [get?_refresh, Option.isSome_or, Option.isSome_or, h, Bool.or_true, Bool.or_true]

/-- **Over a run of refreshes** no served model loses its price, and a refresh moves no price
further than the ratio exactly when it lists no held model again at a price that far from the
one it is served at. -/
theorem refresh_bounds_drift (rules : AcceptanceRules) (overlay : PricingOverlay) (windows : Table String Nat)
    (cached : Option Document) (fetched : Fetched)
    (hstart : ∀ reason, fetched = .error reason → AllPlausible (cachedTable cached))
    (fetches : List Fetched) (next : Fetched) :
    let s := (boot rules overlay windows cached fetched).after fetches
    (∀ m, (s.served.entries.get? m).isSome → ((s.refresh next).served.entries.get? m).isSome) ∧
    ((∀ m old new, overlay.covers m = false → s.served.entries.get? m = some old →
        (s.refresh next).served.entries.get? m = some new → Within rules old new) ↔
      ∀ document, next = .ok document → s.RelistsWithin document) := by
  intro s
  have hs : s.Consistent := (Consistent.boot hstart).after fetches
  refine ⟨fun m hm => s.refresh_keeps_price next hm, ?_⟩
  have hrules : s.rules = rules := after_rules _ fetches
  have hoverlay : s.overlay = overlay := after_overlay _ fetches
  have hbound := refresh_within hs next
  rw [hrules, hoverlay] at hbound
  exact hbound

/-- A document with one model, at one price per million in and out. -/
def listing (model : String) (price : ℚ) : Document :=
  Table.empty.set model (some ⟨some (price / 1000000), none, some (price / 1000000), none, none, none⟩)

def fivefold : AcceptanceRules := ⟨5, by norm_num⟩

/-- A price that doubles while the model stays listed. -/
theorem doubled_price_bounded :
    let s := (boot fivefold Table.empty Table.empty none (.ok (listing "m" 10))).after [.error "timeout"]
    (∀ m, (s.served.entries.get? m).isSome → ((s.refresh (.ok (listing "m" 20))).served.entries.get? m).isSome) ∧
    ((∀ m old new, PricingOverlay.covers Table.empty m = false → s.served.entries.get? m = some old →
        (s.refresh (.ok (listing "m" 20))).served.entries.get? m = some new → Within fivefold old new) ↔
      ∀ document, Except.ok (listing "m" 20) = (.ok document : Fetched) → s.RelistsWithin document) :=
  refresh_bounds_drift fivefold Table.empty Table.empty none (.ok (listing "m" 10)) (fun _ h => nomatch h)
    [.error "timeout"] (.ok (listing "m" 20))

/-- A model is dropped by one document and listed again by the next, at a hundred times its
price: it is admitted. -/
theorem relisted_price_moves_hundredfold :
    let s := (boot fivefold Table.empty Table.empty none (.ok (listing "m" 10))).after [.ok Table.empty]
    s.served.entries.get? "m" = some ⟨10, 10, none, none, none⟩ ∧
    (s.refresh (.ok (listing "m" 1000))).served.entries.get? "m" = some ⟨1000, 1000, none, none, none⟩ ∧
    ¬ Within fivefold ⟨10, 10, none, none, none⟩ ⟨1000, 1000, none, none, none⟩ := by
  intro s
  refine ⟨by decide +kernel, by decide +kernel, fun h => ?_⟩
  have hdrift := h .input 10 1000 rfl rfl
  norm_num [driftRatio, fivefold] at hdrift

end Daemon

end FactorQ.Pricing
