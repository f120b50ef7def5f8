/-
# `FactorQ.Pricing.Episodes` — which pricing conditions have been reported

A load computes every condition afresh: that the fetch failed, that the served table is old,
that a change was refused.  What is published are the edges.  A condition that is not open is
raised; while it is open its recurrence is dropped; the load that ends it publishes a recovery
that names the raising signal.

Two conditions are fixed and the refused changes are keyed by model and field, and the two
kinds are ended by different tests.  A fixed condition asks whether a document was accepted.
A refused change asks only whether this load still lists it, and a load with no document lists
nothing: it closes every refused change that is open.
-/
import FactorQ.Pricing.Refresh

namespace FactorQ.Pricing

open Lib

/-! ## Signals -/

inductive SignalSeverity where
  | notification
  | alert
deriving DecidableEq

inductive SignalKind where
  | pricingChangeRefused
  | pricingFetchFailed
  | pricingStale
  | other (name : String)
deriving DecidableEq

inductive SignalDetail where
  | null
  | error (error : String)
  | refusal (model field : String) (old : Option ℚ) (new : ℚ) (ratio : Option ℚ) (rule : String)
  | stale (lastRefreshMs : Int) (windowHours : Nat)
deriving DecidableEq

structure OperatorSignalPayload (Uuid : Type) where
  severity : SignalSeverity
  kind : SignalKind
  summary : String
  detail : SignalDetail
  resolves : Option Uuid

/-- A payload and the id it will be published under. -/
structure PendingSignal (Uuid : Type) where
  eventId : Uuid
  payload : OperatorSignalPayload Uuid

/-- How a price is written in a line: in full, and to one decimal. -/
structure Numerals where
  plain : ℚ → String
  oneDecimal : ℚ → String

def Refusal.summary (numerals : Numerals) (refusal : Refusal) : String :=
  if refusal.isAdmission then
    refusal.model ++ " reports " ++ refusal.field.asStr ++ " = " ++ numerals.plain refusal.new
      ++ " and has no accepted price; not admitted to the table"
  else
    match refusal.ratio, refusal.old with
    | some ratio, _ =>
      refusal.model ++ " " ++ refusal.field.asStr ++ " moved " ++ numerals.oneDecimal ratio
        ++ "x; kept the prior price"
    | none, some old =>
      refusal.model ++ " " ++ refusal.field.asStr ++ " moved " ++ numerals.plain old ++ " -> "
        ++ numerals.plain refusal.new ++ "; kept the prior price"
    | none, none =>
      refusal.model ++ " newly reports " ++ refusal.field.asStr ++ " = " ++ numerals.plain refusal.new
        ++ "; kept the prior price"

/-! ## Loads -/

/-- A table past its window; times in milliseconds, lengths in seconds. -/
structure Staleness where
  acceptedAt : Int
  age : Nat
  maxAge : Nat

/-- A load with what its table's age came to. -/
structure DatedLoad extends AcceptedLoad where
  staleness : Option Staleness

variable {Uuid : Type}

def refusalSignal (numerals : Numerals) (refusal : Refusal) : OperatorSignalPayload Uuid :=
  ⟨.notification, .pricingChangeRefused, refusal.summary numerals,
    .refusal refusal.model refusal.field.asStr refusal.old refusal.new refusal.ratio refusal.rule.asStr, none⟩

def fetchFailedSignal (error : String) : OperatorSignalPayload Uuid :=
  ⟨.notification, .pricingFetchFailed, "pricing fetch failed; serving the last accepted table (" ++ error ++ ")",
    .error error, none⟩

def staleSignal (stale : Staleness) : OperatorSignalPayload Uuid :=
  ⟨.alert, .pricingStale, "the pricing table has not refreshed for " ++ toString (stale.age / 86400) ++ " days",
    .stale stale.acceptedAt (stale.maxAge / 3600), none⟩

namespace DatedLoad

/-- The refused changes; a model that is not admitted is only counted. -/
def changes (load : DatedLoad) : List Refusal := load.refusals.filter fun r => !r.isAdmission

/-- What there is to say about the load.  `mint` is what the ids are drawn from. -/
def signals (numerals : Numerals) (mint : Nat → Uuid) (load : DatedLoad) : List (PendingSignal Uuid) :=
  (load.fetchError.toList.map fetchFailedSignal ++ load.changes.map (refusalSignal numerals)
    ++ load.staleness.toList.map staleSignal).mapIdx fun i payload => ⟨mint i, payload⟩

end DatedLoad

/-! ## Open episodes -/

/-- The key of a refused change. -/
abbrev RefusalKey := String × PriceField

def Refusal.key (refusal : Refusal) : RefusalKey := (refusal.model, refusal.field)

/-- The raising signal's id, per condition. -/
structure OpenEpisodes (Uuid : Type) where
  stale : Option Uuid
  fetchFailed : Option Uuid
  refused : Table RefusalKey Uuid

inductive Episode where
  | stale
  | fetchFailed
deriving DecidableEq

namespace Episode

def of : SignalKind → Option Episode
  | .pricingStale => some stale
  | .pricingFetchFailed => some fetchFailed
  | _ => none

def kind : Episode → SignalKind
  | stale => .pricingStale
  | fetchFailed => .pricingFetchFailed

/-- Whether the load shows that the condition has ended. -/
def ended (load : DatedLoad) : Episode → Bool
  | stale => load.fetchError.isNone && load.staleness.isNone
  | fetchFailed => load.fetchError.isNone

def recovery : Episode → String
  | stale => "the pricing table has refreshed and is inside its window again"
  | fetchFailed => "the pricing document fetched again; the table is current"

end Episode

/-- The line that closes a refused change. -/
def refusalRecovery (key : RefusalKey) : String :=
  "the refused change for " ++ key.1 ++ "." ++ key.2.asStr
    ++ " is no longer proposed by upstream, or the operator overrode it"

namespace OpenEpisodes

def empty : OpenEpisodes Uuid := ⟨none, none, Table.empty⟩

def get (o : OpenEpisodes Uuid) : Episode → Option Uuid
  | .stale => o.stale
  | .fetchFailed => o.fetchFailed

def set (o : OpenEpisodes Uuid) (episode : Episode) (raised : Option Uuid) : OpenEpisodes Uuid :=
  match episode with
  | .stale => { o with stale := raised }
  | .fetchFailed => { o with fetchFailed := raised }

end OpenEpisodes

/-! ## The edges -/

/-- The loop over the load's signals: what is open, what is published, and the keys not yet
paired with a signal. -/
structure Scan (Uuid : Type) where
  opened : OpenEpisodes Uuid
  published : List (PendingSignal Uuid)
  refusalKeys : List RefusalKey

/-- One turn of it; `none` is the panic of a refusal signal with no refusal. -/
def Scan.take (s : Scan Uuid) (signal : PendingSignal Uuid) : Option (Scan Uuid) :=
  match Episode.of signal.payload.kind with
  | some episode =>
    if (s.opened.get episode).isSome then some s
    else some { s with
      opened := s.opened.set episode (some signal.eventId)
      published := s.published ++ [signal] }
  | none =>
    if signal.payload.kind = .pricingChangeRefused then
      match s.refusalKeys with
      | [] => none
      | key :: refusalKeys =>
        if (s.opened.refused.get? key).isSome then some { s with refusalKeys }
        else some {
          opened := { s.opened with refused := s.opened.refused.set key signal.eventId }
          published := s.published ++ [signal]
          refusalKeys }
    else some { s with published := s.published ++ [signal] }

/-- A recovery: the kind is that of the signal it closes. -/
def resolving (kind : SignalKind) (summary : String) (raised : Uuid) : OperatorSignalPayload Uuid :=
  ⟨.notification, kind, summary, .null, some raised⟩

/-- What is open, and what is published with the recoveries so far; `mint` gives each signal
its id by its place. -/
abbrev Closing (Uuid : Type) := OpenEpisodes Uuid × List (PendingSignal Uuid)

def Closing.push (mint : Nat → Uuid) (acc : Closing Uuid) (o : OpenEpisodes Uuid) (payload : OperatorSignalPayload Uuid) :
    Closing Uuid :=
  (o, acc.2 ++ [⟨mint acc.2.length, payload⟩])

/-- The second loop: a fixed condition that is open and has ended is closed. -/
def closeEpisode (mint : Nat → Uuid) (load : DatedLoad) (acc : Closing Uuid) (episode : Episode) : Closing Uuid :=
  match acc.1.get episode with
  | none => acc
  | some raised =>
    if episode.ended load then
      acc.push mint (acc.1.set episode none) (resolving episode.kind episode.recovery raised)
    else acc

/-- The third: so is a refused change that the load does not list. -/
def closeRefusal (mint : Nat → Uuid) (acc : Closing Uuid) (row : RefusalKey × Uuid) : Closing Uuid :=
  acc.push mint { acc.1 with refused := acc.1.refused.erase row.1 }
    (resolving .pricingChangeRefused (refusalRecovery row.1) row.2)

/-- The order of a `PriceField`, which is that of its declaration. -/
def PriceField.rank : PriceField → Nat
  | input => 0
  | output => 1
  | cacheRead => 2
  | cacheWrite => 3
  | cacheWrite1h => 4

def keyLe (a b : RefusalKey × Uuid) : Bool := a.1.1 < b.1.1 || (a.1.1 = b.1.1 && a.1.2.rank ≤ b.1.2.rank)

/-- The open refused changes that are not active, in the order of their keys. -/
def endedRefusals (o : OpenEpisodes Uuid) (active : List RefusalKey) : List (RefusalKey × Uuid) :=
  (o.refused.rows.filter fun row => row.1 ∉ active).insertionSort fun a b => keyLe a b

/-- `PricingEpisodes::edges`: what is open afterwards, and what is published. -/
def edges (mint : Nat → Uuid) (o : OpenEpisodes Uuid) (load : DatedLoad) (signals : List (PendingSignal Uuid)) :
    Option (Closing Uuid) := do
  let refusalKeys := load.changes.map Refusal.key
  let scanned ← signals.foldlM Scan.take ⟨o, [], refusalKeys⟩
  let closed := [Episode.stale, .fetchFailed].foldl (closeEpisode mint load) (scanned.opened, scanned.published)
  return (endedRefusals closed.1 refusalKeys).foldl (closeRefusal mint) closed

/-- The ids one load's signals and its recoveries are given. -/
structure Minted (Uuid : Type) where
  raising : Nat → Uuid
  closing : Nat → Uuid

/-- One load, passed with its own signals. -/
def report (numerals : Numerals) (o : OpenEpisodes Uuid) (load : DatedLoad × Minted Uuid) : Option (Closing Uuid) :=
  edges load.2.closing o load.1 (load.1.signals numerals load.2.raising)

/-! ## The edges of one condition -/

inductive Condition where
  | stale
  | fetchFailed
  | refused (key : RefusalKey)
deriving DecidableEq

namespace Condition

def opened (o : OpenEpisodes Uuid) : Condition → Option Uuid
  | stale => o.stale
  | fetchFailed => o.fetchFailed
  | refused key => o.refused.get? key

/-- The load shows the condition. -/
def shown (load : DatedLoad) : Condition → Bool
  | stale => load.staleness.isSome
  | fetchFailed => load.fetchError.isSome
  | refused key => key ∈ load.changes.map Refusal.key

/-- The signal is about the condition.  A raise of a refused change has its model and field in
the detail; a recovery has no detail, and its line names them. -/
def names (payload : OperatorSignalPayload Uuid) : Condition → Bool
  | stale => payload.kind = .pricingStale
  | fetchFailed => payload.kind = .pricingFetchFailed
  | refused key => payload.kind = .pricingChangeRefused &&
      match payload.resolves with
      | none =>
        match payload.detail with
        | .refusal model field _ _ _ _ => model = key.1 && field = key.2.asStr
        | _ => false
      | some _ => payload.summary = refusalRecovery key

end Condition

/-- A condition goes up under an id, or the id it went up under is closed. -/
inductive Edge (Uuid : Type) where
  | raised (id : Uuid)
  | recovered (id : Uuid)
deriving DecidableEq

def Condition.edge (c : Condition) (signal : PendingSignal Uuid) : Option (Edge Uuid) :=
  if c.names signal.payload then
    some (match signal.payload.resolves with
      | none => .raised signal.eventId
      | some id => .recovered id)
  else none

/-- The edges of a condition among what is published. -/
def Condition.trail (c : Condition) (published : List (PendingSignal Uuid)) : List (Edge Uuid) :=
  published.filterMap c.edge

/-- Raises and recoveries take turns, and each recovery names the raise before it; the two ends
are what is open before and after. -/
inductive Alternates : Option Uuid → List (Edge Uuid) → Option Uuid → Prop where
  | nil (o : Option Uuid) : Alternates o [] o
  | raised {id : Uuid} {es : List (Edge Uuid)} {o : Option Uuid} (rest : Alternates (some id) es o) :
      Alternates none (.raised id :: es) o
  | recovered {id : Uuid} {es : List (Edge Uuid)} {o : Option Uuid} (rest : Alternates none es o) :
      Alternates (some id) (.recovered id :: es) o

variable {es es' : List (Edge Uuid)} {o o' o'' : Option Uuid}

theorem Alternates.append (h : Alternates o es o') (h' : Alternates o' es' o'') : Alternates o (es ++ es') o'' := by
  induction h with
  | nil => exact h'
  | raised _ ih => exact .raised (ih h')
  | recovered _ ih => exact .recovered (ih h')

/-! ### What each signal is about -/

section Edges

variable {c : Condition} {id : Uuid}

theorem PriceField.asStr_injective {f g : PriceField} (h : f.asStr = g.asStr) : f = g := by
  cases f <;> cases g <;> first | rfl | exact absurd h (by decide)

/-- The last occurrence of a character splits a text in one way. -/
theorem append_cons_inj_of_last {x : Char} {l l' s s' : List Char} (hs : x ∉ s) (hs' : x ∉ s')
    (h : l ++ x :: s = l' ++ x :: s') : l = l' ∧ s = s' := by
  rcases List.append_eq_append_iff.1 h with ⟨m, hl, hm⟩ | ⟨m, hl, hm⟩
  · cases m with
    | nil => exact ⟨by rw [hl, List.append_nil], (List.cons.inj hm).2⟩
    | cons y m =>
      refine absurd ?_ hs
      rw [(List.cons.inj hm).2]
      exact List.mem_append_right _ List.mem_cons_self
  · cases m with
    | nil => exact ⟨by rw [hl, List.append_nil], (List.cons.inj hm).2.symm⟩
    | cons y m =>
      refine absurd ?_ hs'
      rw [(List.cons.inj hm).2]
      exact List.mem_append_right _ List.mem_cons_self

theorem PriceField.asStr_no_point (f : PriceField) : '.' ∉ f.asStr.toList := by
  cases f <;> decide

/-- Between two fixed texts, a model and a field joined by a point are told apart. -/
theorem joined_injective (before after : String) {k k' : RefusalKey}
    (h : before ++ k.1 ++ "." ++ k.2.asStr ++ after = before ++ k'.1 ++ "." ++ k'.2.asStr ++ after) : k = k' := by
  have hpoint : ".".toList = ['.'] := by decide
  have hlist := congrArg String.toList h
  simp only [String.toList_append, hpoint] at hlist
  have hcut := List.append_cancel_right hlist
  simp only [List.append_assoc] at hcut
  obtain ⟨hmodel, hfield⟩ :=
    append_cons_inj_of_last k.2.asStr_no_point k'.2.asStr_no_point (List.append_cancel_left hcut)
  exact Prod.ext (String.toList_injective hmodel) (PriceField.asStr_injective (String.toList_injective hfield))

/-- The line of a recovery gives its key back. -/
theorem refusalRecovery_injective {k k' : RefusalKey} (h : refusalRecovery k = refusalRecovery k') : k = k' :=
  joined_injective _ _ h

theorem edge_fetchFailed (error : String) :
    c.edge ⟨id, fetchFailedSignal error⟩ = if c = .fetchFailed then some (.raised id) else none := by
  cases c <;> simp [Condition.edge, Condition.names, fetchFailedSignal]

theorem edge_stale (stale : Staleness) :
    c.edge ⟨id, staleSignal stale⟩ = if c = .stale then some (.raised id) else none := by
  cases c <;> simp [Condition.edge, Condition.names, staleSignal]

theorem edge_refusal (numerals : Numerals) (refusal : Refusal) :
    c.edge ⟨id, refusalSignal numerals refusal⟩ = if c = .refused refusal.key then some (.raised id) else none := by
  cases c with
  | stale => simp [Condition.edge, Condition.names, refusalSignal]
  | fetchFailed => simp [Condition.edge, Condition.names, refusalSignal]
  | refused key =>
    have hkey : (refusal.model = key.1 ∧ refusal.field.asStr = key.2.asStr) ↔ key = refusal.key := by
      constructor
      · rintro ⟨hmodel, hfield⟩
        exact Prod.ext hmodel.symm (PriceField.asStr_injective hfield).symm
      · rintro rfl
        exact ⟨rfl, rfl⟩
    simp [Condition.edge, Condition.names, refusalSignal, hkey]

def Episode.condition : Episode → Condition
  | stale => .stale
  | fetchFailed => .fetchFailed

theorem edge_resolving_episode (episode : Episode) (raised : Uuid) :
    c.edge ⟨id, resolving episode.kind episode.recovery raised⟩ =
      if c = episode.condition then some (.recovered raised) else none := by
  cases episode <;> cases c <;> simp [Condition.edge, Condition.names, resolving, Episode.kind, Episode.condition]

theorem edge_resolving_refusal (key : RefusalKey) (raised : Uuid) :
    c.edge ⟨id, resolving .pricingChangeRefused (refusalRecovery key) raised⟩ =
      if c = .refused key then some (.recovered raised) else none := by
  cases c with
  | stale => simp [Condition.edge, Condition.names, resolving]
  | fetchFailed => simp [Condition.edge, Condition.names, resolving]
  | refused k =>
    have hkey : refusalRecovery key = refusalRecovery k ↔ k = key :=
      ⟨fun h => (refusalRecovery_injective h).symm, fun h => by rw [h]⟩
    simp [Condition.edge, Condition.names, resolving, hkey]

end Edges

/-! ### What one load raises -/

/-- One condition through the first loop: left alone, or raised where the load shows it. -/
inductive Raised : Option Uuid → Bool → List (Edge Uuid) → Option Uuid → Prop where
  | standing (id : Uuid) (shown : Bool) : Raised (some id) shown [] (some id)
  | quiet : Raised none false [] none
  | fresh (id : Uuid) : Raised none true [.raised id] (some id)

theorem Raised.trans {b b' : Bool} (h : Raised o b es o') (h' : Raised o' b' es' o'') :
    Raised o (b || b') (es ++ es') o'' := by
  cases h with
  | standing id shown =>
    cases h' with
    | standing => exact .standing id _
  | quiet => exact h'
  | fresh id =>
    cases h' with
    | standing => exact .fresh id

theorem Raised.refl (o : Option Uuid) : Raised o false [] o := by
  cases o with
  | none => exact .quiet
  | some id => exact .standing id false

/-- The loop goes from `s` to `s'` over signals that show the conditions `shown`. -/
structure Scan.Shows (s s' : Scan Uuid) (shown : Condition → Bool) : Prop where
  published : ∃ new, s'.published = s.published ++ new ∧
    ∀ c : Condition, Raised (c.opened s.opened) (shown c) (c.trail new) (c.opened s'.opened)

namespace Scan

variable {s s' s'' : Scan Uuid}

theorem Shows.refl (s : Scan Uuid) : s.Shows s fun _ => false :=
  ⟨[], (List.append_nil _).symm, fun _ => .refl _⟩

theorem Shows.trans {shown shown' : Condition → Bool} (h : s.Shows s' shown) (h' : s'.Shows s'' shown') :
    s.Shows s'' fun c => shown c || shown' c := by
  obtain ⟨new, hnew, hraised⟩ := h
  obtain ⟨new', hnew', hraised'⟩ := h'
  refine ⟨new ++ new', by rw [hnew', hnew, List.append_assoc], fun c => ?_⟩
  rw [Condition.trail, List.filterMap_append]
  exact (hraised c).trans (hraised' c)

theorem Shows.dropped (hopened : s'.opened = s.opened) (hpub : s'.published = s.published) {c₀ : Condition}
    (h : (c₀.opened s.opened).isSome) : s.Shows s' fun c => c = c₀ := by
  refine ⟨[], by rw [hpub, List.append_nil], fun c => ?_⟩
  rw [hopened]
  by_cases e : c = c₀
  · obtain ⟨id, hid⟩ := Option.isSome_iff_exists.1 h
    rw [e, hid]
    exact .standing id _
  · rw [decide_eq_false e]
    exact .refl _

/-- One about a condition that is not open is published, and opens it. -/
theorem Shows.pushed {signal : PendingSignal Uuid} {c₀ : Condition} (hpub : s'.published = s.published ++ [signal])
    (hedge : ∀ c : Condition, c.edge signal = if c = c₀ then some (.raised signal.eventId) else none)
    (hnone : c₀.opened s.opened = none)
    (hopened : ∀ c : Condition, c.opened s'.opened = if c = c₀ then some signal.eventId else c.opened s.opened) :
    s.Shows s' fun c => c = c₀ := by
  refine ⟨[signal], hpub, fun c => ?_⟩
  have htrail : c.trail [signal] = (c.edge signal).toList := by
    rw [Condition.trail, List.filterMap_cons]
    cases c.edge signal <;> rfl
  rw [htrail, hopened, hedge]
  by_cases e : c = c₀
  · rw [if_pos e, if_pos e, decide_eq_true e, e, hnone]
    exact .fresh _
  · rw [if_neg e, if_neg e, decide_eq_false e]
    exact .refl _

theorem opened_set (o : OpenEpisodes Uuid) (episode : Episode) (raised : Option Uuid) (c : Condition) :
    c.opened (o.set episode raised) = if c = episode.condition then raised else c.opened o := by
  cases episode <;> cases c <;> simp [OpenEpisodes.set, Condition.opened, Episode.condition]

theorem opened_condition (o : OpenEpisodes Uuid) (episode : Episode) : episode.condition.opened o = o.get episode := by
  cases episode <;> rfl

theorem take_episode (s : Scan Uuid) {signal : PendingSignal Uuid} {episode : Episode}
    (hkind : Episode.of signal.payload.kind = some episode)
    (hedge : ∀ c : Condition, c.edge signal = if c = episode.condition then some (.raised signal.eventId) else none) :
    ∃ s', s.take signal = some s' ∧ s'.refusalKeys = s.refusalKeys ∧ s.Shows s' fun c => c = episode.condition := by
  unfold take
  rw [hkind]
  dsimp only
  split
  next hopen =>
    refine ⟨s, rfl, rfl, .dropped rfl rfl ?_⟩
    rw [opened_condition]
    exact hopen
  next hopen =>
    refine ⟨_, rfl, rfl, .pushed rfl hedge ?_ fun c => opened_set ..⟩
    rw [opened_condition]
    exact Option.not_isSome_iff_eq_none.1 hopen

theorem opened_refused_set (o : OpenEpisodes Uuid) (key : RefusalKey) (raised : Uuid) (c : Condition) :
    c.opened { o with refused := o.refused.set key raised } = if c = .refused key then some raised else c.opened o := by
  cases c with
  | stale => simp [Condition.opened]
  | fetchFailed => simp [Condition.opened]
  | refused k => simp [Condition.opened, Table.get?_set]

theorem take_refusal (s : Scan Uuid) (numerals : Numerals) (id : Uuid) (refusal : Refusal) {keys : List RefusalKey}
    (hkeys : s.refusalKeys = refusal.key :: keys) :
    ∃ s', s.take ⟨id, refusalSignal numerals refusal⟩ = some s' ∧ s'.refusalKeys = keys ∧
      s.Shows s' fun c => c = .refused refusal.key := by
  have htake : s.take ⟨id, refusalSignal numerals refusal⟩ =
      if (s.opened.refused.get? refusal.key).isSome then some { s with refusalKeys := keys }
      else some {
        opened := { s.opened with refused := s.opened.refused.set refusal.key id }
        published := s.published ++ [⟨id, refusalSignal numerals refusal⟩]
        refusalKeys := keys } := by
    unfold take
    rw [hkeys]
    rfl
  rw [htake]
  split
  next hopen =>
    have hopened : ((Condition.refused refusal.key).opened s.opened).isSome := hopen
    refine ⟨_, rfl, rfl, .dropped ?_ ?_ hopened⟩
    · rfl
    · rfl
  next hopen =>
    exact ⟨_, rfl, rfl, .pushed rfl (fun c => edge_refusal numerals refusal) (Option.not_isSome_iff_eq_none.1 hopen)
      fun c => opened_refused_set ..⟩

theorem foldlM_refusals (numerals : Numerals) (refusals : List Refusal) (ids : Nat → Uuid) (s : Scan Uuid)
    (hkeys : s.refusalKeys = refusals.map Refusal.key) :
    ∃ s', ((refusals.map (refusalSignal numerals)).mapIdx fun i payload => PendingSignal.mk (ids i) payload).foldlM
        take s = some s' ∧
      s.Shows s' fun c => refusals.any fun r => c = .refused r.key := by
  induction refusals generalizing ids s with
  | nil => exact ⟨s, rfl, .refl s⟩
  | cons refusal refusals ih =>
    obtain ⟨s₁, htake, hkeys₁, hshows₁⟩ := s.take_refusal numerals (ids 0) refusal hkeys
    obtain ⟨s₂, hfold, hshows₂⟩ := ih (fun i => ids (i + 1)) s₁ hkeys₁
    refine ⟨s₂, ?_, hshows₁.trans hshows₂⟩
    rw [List.map_cons, List.mapIdx_cons, List.foldlM_cons, htake]
    exact hfold

theorem foldlM_episode {α : Type} (episode : Episode) (signal : α → OperatorSignalPayload Uuid)
    (hkind : ∀ a, Episode.of (signal a).kind = some episode)
    (hedge : ∀ (a : α) (id : Uuid) (c : Condition),
      c.edge ⟨id, signal a⟩ = if c = episode.condition then some (.raised id) else none)
    (source : Option α) (ids : Nat → Uuid) (s : Scan Uuid) :
    ∃ s', ((source.toList.map signal).mapIdx fun i payload => PendingSignal.mk (ids i) payload).foldlM take s = some s' ∧
      s'.refusalKeys = s.refusalKeys ∧ s.Shows s' fun c => source.isSome && c = episode.condition := by
  cases source with
  | none => exact ⟨s, rfl, rfl, .refl s⟩
  | some a =>
    obtain ⟨s', htake, hkeys, hshows⟩ := s.take_episode (hkind a) (hedge a (ids 0))
    refine ⟨s', ?_, hkeys, hshows⟩
    rw [Option.toList_some, List.map_cons, List.map_nil, List.mapIdx_cons, List.mapIdx_nil, List.foldlM_cons, htake]
    rfl

/-- A load's own signals show what the load shows, and every refusal signal has its refusal. -/
theorem foldlM_signals (numerals : Numerals) (mint : Nat → Uuid) (o : OpenEpisodes Uuid) (load : DatedLoad) :
    ∃ s', (load.signals numerals mint).foldlM take ⟨o, [], load.changes.map Refusal.key⟩ = some s' ∧
      Scan.Shows ⟨o, [], load.changes.map Refusal.key⟩ s' fun c => c.shown load := by
  obtain ⟨s₁, hfold₁, hkeys₁, hshows₁⟩ := foldlM_episode .fetchFailed fetchFailedSignal (fun _ => rfl)
    (fun error id c => edge_fetchFailed error) load.fetchError mint ⟨o, [], load.changes.map Refusal.key⟩
  obtain ⟨s₂, hfold₂, hshows₂⟩ := foldlM_refusals numerals load.changes
    (fun i => mint (i + (load.fetchError.toList.map fetchFailedSignal : List (OperatorSignalPayload Uuid)).length))
    s₁ hkeys₁
  obtain ⟨s₃, hfold₃, _, hshows₃⟩ := foldlM_episode .stale staleSignal (fun _ => rfl)
    (fun stale id c => edge_stale stale) load.staleness
    (fun i => mint (i + (load.fetchError.toList.map fetchFailedSignal
      ++ load.changes.map (refusalSignal numerals) : List (OperatorSignalPayload Uuid)).length)) s₂
  refine ⟨s₃, ?_, ?_⟩
  · rw [DatedLoad.signals, List.mapIdx_append, List.mapIdx_append, List.foldlM_append, List.foldlM_append, hfold₁]
    exact (congrArg (· >>= _) hfold₂).trans hfold₃
  · have hall := (hshows₁.trans hshows₂).trans hshows₃
    have hshown : (fun c : Condition => load.fetchError.isSome && decide (c = Episode.fetchFailed.condition) ||
        (load.changes.any fun r => c = .refused r.key) || load.staleness.isSome && decide (c = Episode.stale.condition)) =
        fun c => c.shown load := by
      funext c
      cases c with
      | stale => simp [Condition.shown, Episode.condition]
      | fetchFailed => simp [Condition.shown, Episode.condition]
      | refused key =>
        simp only [Condition.shown, Episode.condition, reduceCtorEq, decide_false, Bool.and_false, Bool.or_false,
          Bool.false_or, Condition.refused.injEq]
        rw [Bool.eq_iff_iff, List.any_eq_true, decide_eq_true_iff, List.mem_map]
        constructor
        · rintro ⟨r, hr, hkey⟩
          exact ⟨r, hr, (of_decide_eq_true hkey).symm⟩
        · rintro ⟨r, hr, hkey⟩
          exact ⟨r, hr, decide_eq_true hkey.symm⟩
    rw [← hshown]
    exact hall

end Scan

/-! ### What it closes -/

/-- One condition through the other loops: closed under the id it is open under, where `ends`
says so. -/
inductive Closed : Option Uuid → Bool → List (Edge Uuid) → Option Uuid → Prop where
  | standing (o : Option Uuid) : Closed o false [] o
  | idle : Closed none true [] none
  | shut (id : Uuid) : Closed (some id) true [.recovered id] none

theorem Closed.trans {b b' : Bool} (h : Closed o b es o') (h' : Closed o' b' es' o'') :
    Closed o (b || b') (es ++ es') o'' := by
  cases h with
  | standing => exact h'
  | idle =>
    cases h' with
    | standing => exact .idle
    | idle => exact .idle
  | shut id =>
    cases h' with
    | standing => exact .shut id
    | idle => exact .shut id

theorem Closed.of_false {o o' : Option Uuid} {es : List (Edge Uuid)} (h : Closed o false es o') : es = [] ∧ o' = o := by
  cases h
  exact ⟨rfl, rfl⟩

/-- The loops go from one state to the other, over the conditions that `ends` names. -/
structure Closing.Ends (acc acc' : Closing Uuid) (ends : Condition → Bool) : Prop where
  published : ∃ new, acc'.2 = acc.2 ++ new ∧
    ∀ c : Condition, Closed (c.opened acc.1) (ends c) (c.trail new) (c.opened acc'.1)

namespace Closing

variable {acc acc' acc'' : Closing Uuid}

theorem Ends.refl (acc : Closing Uuid) : acc.Ends acc fun _ => false :=
  ⟨[], (List.append_nil _).symm, fun _ => .standing _⟩

theorem Ends.trans {ends ends' : Condition → Bool} (h : acc.Ends acc' ends) (h' : acc'.Ends acc'' ends') :
    acc.Ends acc'' fun c => ends c || ends' c := by
  obtain ⟨new, hnew, hclosed⟩ := h
  obtain ⟨new', hnew', hclosed'⟩ := h'
  refine ⟨new ++ new', by rw [hnew', hnew, List.append_assoc], fun c => ?_⟩
  rw [Condition.trail, List.filterMap_append]
  exact (hclosed c).trans (hclosed' c)

theorem Ends.pushed {mint : Nat → Uuid} {o : OpenEpisodes Uuid} {payload : OperatorSignalPayload Uuid} {raised : Uuid}
    {c₀ : Condition} (hsome : c₀.opened acc.1 = some raised)
    (hedge : ∀ (c : Condition) (id : Uuid), c.edge ⟨id, payload⟩ = if c = c₀ then some (.recovered raised) else none)
    (hopened : ∀ c : Condition, c.opened o = if c = c₀ then none else c.opened acc.1) :
    acc.Ends (acc.push mint o payload) fun c => c = c₀ := by
  refine ⟨[⟨mint acc.2.length, payload⟩], rfl, fun c => ?_⟩
  have htrail : c.trail [⟨mint acc.2.length, payload⟩] = (c.edge ⟨mint acc.2.length, payload⟩).toList := by
    rw [Condition.trail, List.filterMap_cons]
    cases c.edge ⟨mint acc.2.length, payload⟩ <;> rfl
  have hafter : c.opened (acc.push mint o payload).1 = if c = c₀ then none else c.opened acc.1 := hopened c
  rw [htrail, hafter, hedge]
  by_cases e : c = c₀
  · rw [if_pos e, if_pos e, decide_eq_true e, e, hsome]
    exact .shut raised
  · rw [if_neg e, if_neg e, decide_eq_false e]
    exact .standing _

theorem ends_closeEpisode (mint : Nat → Uuid) (load : DatedLoad) (acc : Closing Uuid) (episode : Episode) :
    acc.Ends (closeEpisode mint load acc episode) fun c => c = episode.condition && episode.ended load := by
  unfold closeEpisode
  split
  next hnone =>
    refine ⟨[], (List.append_nil _).symm, fun c => ?_⟩
    by_cases e : c = episode.condition
    · rw [e, Scan.opened_condition, hnone, decide_eq_true rfl, Bool.true_and]
      cases episode.ended load with
      | true => exact .idle
      | false => exact .standing none
    · rw [decide_eq_false e, Bool.false_and]
      exact .standing _
  next raised hsome =>
    split
    next hended =>
      rw [hended]
      simp only [Bool.and_true]
      refine .pushed (by rw [Scan.opened_condition]; exact hsome) (fun c id => edge_resolving_episode ..) fun c => ?_
      exact Scan.opened_set ..
    next hended =>
      rw [Bool.not_eq_true] at hended
      rw [hended]
      simp only [Bool.and_false]
      exact .refl acc

/-- The keys in the list are open under the ids in it; all of them are closed. -/
theorem ends_refusals (mint : Nat → Uuid) (rows : List (RefusalKey × Uuid)) (acc : Closing Uuid)
    (hnd : (rows.map Prod.fst).Nodup) (hrows : ∀ row ∈ rows, acc.1.refused.get? row.1 = some row.2) :
    acc.Ends (rows.foldl (closeRefusal mint) acc) fun c => rows.any fun row => c = .refused row.1 := by
  induction rows generalizing acc with
  | nil => exact .refl acc
  | cons row rows ih =>
    obtain ⟨hnew, hnd⟩ := List.nodup_cons.1 hnd
    have hopened : ∀ c : Condition, c.opened { acc.1 with refused := acc.1.refused.erase row.1 } =
        if c = .refused row.1 then none else c.opened acc.1 := by
      intro c
      cases c with
      | stale => simp [Condition.opened]
      | fetchFailed => simp [Condition.opened]
      | refused k => simp [Condition.opened, Table.get?_erase]
    have hfirst : acc.Ends (closeRefusal mint acc row) fun c => c = .refused row.1 :=
      .pushed (hrows row List.mem_cons_self) (fun c id => edge_resolving_refusal ..) hopened
    refine hfirst.trans (ih _ hnd fun row' hrow' => ?_)
    have hne : row'.1 ≠ row.1 := fun e => hnew (e ▸ List.mem_map_of_mem hrow')
    show (acc.1.refused.erase row.1).get? row'.1 = some row'.2
    rw [Table.get?_erase, if_neg hne]
    exact hrows row' (List.mem_cons_of_mem _ hrow')

end Closing

/-- The load ends the condition, if it is open. -/
def Condition.endedBy (load : DatedLoad) : Condition → Bool
  | stale => Episode.stale.ended load
  | fetchFailed => Episode.fetchFailed.ended load
  | refused key => key ∉ load.changes.map Refusal.key

/-- A refused change is among those ended if it is open and the load does not list it. -/
theorem any_endedRefusals (o : OpenEpisodes Uuid) (active : List RefusalKey) (key : RefusalKey) :
    ((endedRefusals o active).any fun row => Condition.refused key = .refused row.1) =
      ((o.refused.get? key).isSome && decide (key ∉ active)) := by
  rw [Bool.eq_iff_iff, List.any_eq_true, Bool.and_eq_true, decide_eq_true_iff]
  constructor
  · rintro ⟨row, hrow, hkey⟩
    obtain rfl := Condition.refused.inj (of_decide_eq_true hkey)
    rw [endedRefusals, List.mem_insertionSort, List.mem_filter] at hrow
    rw [Table.mem_rows.1 hrow.1]
    exact ⟨rfl, of_decide_eq_true hrow.2⟩
  · rintro ⟨hopen, hnot⟩
    obtain ⟨id, hid⟩ := Option.isSome_iff_exists.1 hopen
    refine ⟨(key, id), ?_, decide_eq_true rfl⟩
    rw [endedRefusals, List.mem_insertionSort, List.mem_filter]
    exact ⟨Table.mem_rows.2 hid, decide_eq_true hnot⟩

/-- What one load comes to: it publishes, each condition is raised if the load shows it and it
is not open, and closed if it is open and the load ends it. -/
theorem report_spec (numerals : Numerals) (o : OpenEpisodes Uuid) (load : DatedLoad × Minted Uuid) :
    ∃ o' published, report numerals o load = some (o', published) ∧
      ∀ c : Condition, ∃ mid es es', c.trail published = es ++ es' ∧
        Raised (c.opened o) (c.shown load.1) es mid ∧ Closed mid (c.endedBy load.1) es' (c.opened o') := by
  obtain ⟨s, hfold, new, hnew, hraised⟩ := Scan.foldlM_signals numerals load.2.raising o load.1
  have hepisodes := (Closing.ends_closeEpisode load.2.closing load.1 (s.opened, s.published) .stale).trans
    (Closing.ends_closeEpisode load.2.closing load.1 _ .fetchFailed)
  generalize hclosed : closeEpisode load.2.closing load.1
    (closeEpisode load.2.closing load.1 (s.opened, s.published) .stale) .fetchFailed = closed at hepisodes
  have hrows : ∀ row ∈ endedRefusals closed.1 (load.1.changes.map Refusal.key),
      closed.1.refused.get? row.1 = some row.2 := by
    intro row hrow
    rw [endedRefusals, List.mem_insertionSort, List.mem_filter] at hrow
    exact Table.mem_rows.1 hrow.1
  have hnd : ((endedRefusals closed.1 (load.1.changes.map Refusal.key)).map Prod.fst).Nodup := by
    rw [endedRefusals, ((List.perm_insertionSort _ _).map Prod.fst).nodup_iff]
    exact closed.1.refused.nodup.sublist (List.filter_sublist.map _)
  have hrefusals := Closing.ends_refusals load.2.closing _ closed hnd hrows
  generalize hlast : (endedRefusals closed.1 (load.1.changes.map Refusal.key)).foldl
    (closeRefusal load.2.closing) closed = last at hrefusals
  have hreport : report numerals o load = some last := by
    rw [report, edges, hfold]
    show some _ = _
    rw [← hlast, ← hclosed]
    rfl
  obtain ⟨new', hnew', hclosings⟩ := hepisodes.trans hrefusals
  refine ⟨last.1, last.2, hreport, fun c => ⟨_, c.trail new, c.trail new', ?_, hraised c, ?_⟩⟩
  · rw [hnew', Condition.trail, List.filterMap_append, hnew]
    rfl
  · have hends := hclosings c
    cases c with
    | stale => simpa [Episode.condition, Condition.endedBy, List.any_eq] using hends
    | fetchFailed => simpa [Episode.condition, Condition.endedBy, List.any_eq] using hends
    | refused key =>
      -- the fixed conditions leave the refused changes as they are
      have hsame : (Condition.refused key).opened closed.1 = (Condition.refused key).opened s.opened := by
        obtain ⟨_, _, hfixed⟩ := hepisodes
        have hkept := hfixed (.refused key)
        simp only [Episode.condition, reduceCtorEq, decide_false, Bool.false_and, Bool.or_false] at hkept
        exact hkept.of_false.2
      have hopen : closed.1.refused.get? key = (Condition.refused key).opened s.opened := hsame
      rw [any_endedRefusals, hopen] at hends
      simp only [Episode.condition, reduceCtorEq, decide_false, Bool.false_and, Bool.or_false, Bool.false_or] at hends
      show Closed ((Condition.refused key).opened s.opened) (decide (key ∉ load.1.changes.map Refusal.key)) _ _
      cases hmid : (Condition.refused key).opened s.opened with
      | some id =>
        rw [hmid, Option.isSome_some, Bool.true_and] at hends
        exact hends
      | none =>
        rw [hmid, Option.isSome_none, Bool.false_and] at hends
        rw [hends.of_false.1, hends.of_false.2]
        cases decide (key ∉ load.1.changes.map Refusal.key) with
        | true => exact .idle
        | false => exact .standing none

theorem Raised.alternates {o o' : Option Uuid} {b : Bool} {es : List (Edge Uuid)} (h : Raised o b es o') :
    Alternates o es o' := by
  cases h with
  | standing id => exact .nil _
  | quiet => exact .nil _
  | fresh id => exact .raised (.nil _)

theorem Closed.alternates {o o' : Option Uuid} {b : Bool} {es : List (Edge Uuid)} (h : Closed o b es o') :
    Alternates o es o' := by
  cases h with
  | standing => exact .nil _
  | idle => exact .nil _
  | shut id => exact .recovered (.nil _)

theorem Condition.not_endedBy {load : DatedLoad} {c : Condition} (h : c.shown load = true) : c.endedBy load = false := by
  cases c with
  | stale =>
    have hsome : load.staleness.isNone = false := by rwa [← Option.not_isSome, Bool.not_eq_false']
    simp [endedBy, Episode.ended, hsome]
  | fetchFailed =>
    have hsome : load.fetchError.isNone = false := by rwa [← Option.not_isSome, Bool.not_eq_false']
    simp [endedBy, Episode.ended, hsome]
  | refused key =>
    have hmem : key ∈ load.changes.map Refusal.key := of_decide_eq_true h
    exact decide_eq_false (not_not.2 hmem)

/-- A load publishes a recovery of exactly the conditions that are open and that it ends. -/
theorem recovered_iff {o mid o' : Option Uuid} {load : DatedLoad} {c : Condition}
    (hraised : Raised o (c.shown load) es mid) (hclosed : Closed mid (c.endedBy load) es' o') :
    (∃ id, Edge.recovered id ∈ es ++ es') ↔ o.isSome = true ∧ c.endedBy load = true := by
  generalize hshown : c.shown load = shown at hraised
  generalize hended : c.endedBy load = ended at hclosed
  cases hraised with
  | standing id =>
    cases hclosed with
    | standing => simp
    | shut => simp
  | quiet =>
    cases hclosed with
    | standing => simp
    | idle => simp
  | fresh id =>
    rw [Condition.not_endedBy hshown] at hended
    cases hclosed with
    | standing => simp
    | shut => exact nomatch hended

/-- A condition that a load ends whenever it does not show it is open afterwards if it is shown. -/
theorem Raised.isSome_closed {o mid o' : Option Uuid} {shown : Bool} (hraised : Raised o shown es mid)
    (hclosed : Closed mid (!shown) es' o') : o'.isSome = shown := by
  generalize hended : (!shown) = ended at hclosed
  cases hclosed with
  | standing =>
    obtain rfl : shown = true := by simpa using hended
    cases hraised <;> rfl
  | idle | shut =>
    obtain rfl : shown = false := by simpa using hended
    rfl

theorem report_refused {numerals : Numerals} {o o' : OpenEpisodes Uuid} {load : DatedLoad × Minted Uuid}
    {published : List (PendingSignal Uuid)} (h : report numerals o load = some (o', published)) (key : RefusalKey) :
    (o'.refused.get? key).isSome = true ↔ key ∈ load.1.changes.map Refusal.key := by
  obtain ⟨o₁, published₁, hreport, hedges⟩ := report_spec numerals o load
  obtain ⟨rfl, rfl⟩ := Prod.ext_iff.1 (Option.some.inj (hreport.symm.trans h))
  obtain ⟨mid, es, es', -, hraised, hclosed⟩ := hedges (.refused key)
  have hended : (Condition.refused key).endedBy load.1 = !(Condition.refused key).shown load.1 := decide_not
  rw [hended] at hclosed
  have hopen : (o₁.refused.get? key).isSome = decide (key ∈ load.1.changes.map Refusal.key) :=
    hraised.isSome_closed hclosed
  rw [hopen, decide_eq_true_iff]

/-! ## A run of loads -/

/-- Loads one after the other: what is open at the end, and all that was published. -/
def reports (numerals : Numerals) : OpenEpisodes Uuid → List (DatedLoad × Minted Uuid) → Option (Closing Uuid)
  | o, [] => some (o, [])
  | o, load :: loads => do
      let first ← report numerals o load
      let rest ← reports numerals first.1 loads
      return (rest.1, first.2 ++ rest.2)

theorem reports_alternate (numerals : Numerals) (loads : List (DatedLoad × Minted Uuid)) (o : OpenEpisodes Uuid) :
    ∃ o' published, reports numerals o loads = some (o', published) ∧
      ∀ c : Condition, Alternates (c.opened o) (c.trail published) (c.opened o') := by
  induction loads generalizing o with
  | nil => exact ⟨o, [], rfl, fun c => .nil _⟩
  | cons load loads ih =>
    obtain ⟨o₁, published₁, hreport, hedges⟩ := report_spec numerals o load
    obtain ⟨o₂, published₂, hrest, halternate⟩ := ih o₁
    refine ⟨o₂, published₁ ++ published₂, ?_, fun c => ?_⟩
    · rw [reports, hreport]
      show (do let rest ← reports numerals o₁ loads; return (rest.1, published₁ ++ rest.2)) = _
      rw [hrest]
      rfl
    · obtain ⟨mid, es, es', htrail, hraised, hclosed⟩ := hedges c
      rw [Condition.trail, List.filterMap_append]
      refine Alternates.append ?_ (halternate c)
      rw [← Condition.trail, htrail]
      exact hraised.alternates.append hclosed.alternates

theorem reports_concat {numerals : Numerals} {before : List (DatedLoad × Minted Uuid)} {last : DatedLoad × Minted Uuid}
    {o o' : OpenEpisodes Uuid} {published : List (PendingSignal Uuid)}
    (h : reports numerals o (before ++ [last]) = some (o', published)) :
    ∃ o₁ published₁, report numerals o₁ last = some (o', published₁) := by
  induction before generalizing o published with
  | nil =>
    obtain ⟨first, hfirst, heq⟩ := Option.bind_eq_some_iff.1 h
    cases heq
    exact ⟨o, first.2, hfirst⟩
  | cons load before ih =>
    obtain ⟨first, -, hthen⟩ := Option.bind_eq_some_iff.1 h
    obtain ⟨rest, hrest, heq⟩ := Option.bind_eq_some_iff.1 hthen
    cases heq
    exact ih hrest

/-- The loads are reported edge by edge.  Raises and recoveries of a condition take turns, from
a raise on, each recovery naming the raise before it; and the load that publishes a recovery
accepted a document and does not show the condition. -/
structure EdgeTriggered (numerals : Numerals) (loads : List (DatedLoad × Minted Uuid)) : Prop where
  alternate : ∃ o published, reports numerals .empty loads = some (o, published) ∧
    ∀ c : Condition, Alternates none (c.trail published) (c.opened o)
  recovery : ∀ before load after o earlier, loads = before ++ load :: after →
    reports numerals .empty before = some (o, earlier) →
    ∀ o' published, report numerals o load = some (o', published) →
    ∀ (c : Condition) id, .recovered id ∈ c.trail published → load.1.fetchError = none ∧ c.shown load.1 = false

/-- Edge by edge exactly when each load that has no document comes while no refused change is open
but those it lists itself. -/
theorem edgeTriggered_iff_open (numerals : Numerals) (loads : List (DatedLoad × Minted Uuid)) :
    EdgeTriggered numerals loads ↔
      ∀ before load after o earlier, loads = before ++ load :: after →
        reports numerals .empty before = some (o, earlier) → load.1.fetchError.isSome →
        ∀ key, (o.refused.get? key).isSome → key ∈ load.1.changes.map Refusal.key := by
  constructor
  · intro h before load after o earlier hloads hbefore hfailed key hopen
    by_contra hnot
    obtain ⟨o', published, hreport, hedges⟩ := report_spec numerals o load
    obtain ⟨mid, es, es', htrail, hraised, hclosed⟩ := hedges (.refused key)
    obtain ⟨id, hid⟩ := (recovered_iff hraised hclosed).2 ⟨hopen, decide_eq_true hnot⟩
    rw [← htrail] at hid
    have haccepted := (h.recovery before load after o earlier hloads hbefore o' published hreport _ id hid).1
    rw [haccepted] at hfailed
    exact nomatch hfailed
  · intro h
    refine ⟨?_, fun before load after o earlier hloads hbefore o' published hreport c id hid => ?_⟩
    · obtain ⟨o, published, hreports, halternate⟩ := reports_alternate numerals loads .empty
      refine ⟨o, published, hreports, fun c => ?_⟩
      have hnone : c.opened (OpenEpisodes.empty : OpenEpisodes Uuid) = none := by
        cases c <;> rfl
      rw [← hnone]
      exact halternate c
    · obtain ⟨o₁, published₁, hreport₁, hedges⟩ := report_spec numerals o load
      obtain ⟨rfl, rfl⟩ := Prod.ext_iff.1 (Option.some.inj (hreport₁.symm.trans hreport))
      obtain ⟨mid, es, es', htrail, hraised, hclosed⟩ := hedges c
      rw [htrail] at hid
      obtain ⟨hopen, hended⟩ := (recovered_iff hraised hclosed).1 ⟨id, hid⟩
      have hshown : c.shown load.1 = false := by
        by_contra hne
        rw [Bool.not_eq_false] at hne
        exact nomatch (Condition.not_endedBy hne).symm.trans hended
      refine ⟨?_, hshown⟩
      cases c with
      | stale => exact Option.isNone_iff_eq_none.1 (Bool.and_eq_true_iff.1 hended).1
      | fetchFailed => exact Option.isNone_iff_eq_none.1 hended
      | refused key =>
        rw [← Option.not_isSome_iff_eq_none]
        intro hfailed
        exact of_decide_eq_true hended (h before load after o earlier hloads hbefore hfailed key hopen)

/-- **Edge by edge** exactly when no load that refused a change is directly followed by one that has
no document and does not list the change itself; a failed fetch lists none. -/
theorem edge_triggered_iff (numerals : Numerals) (loads : List (DatedLoad × Minted Uuid)) :
    EdgeTriggered numerals loads ↔
      ∀ before earlier load after, loads = before ++ earlier :: load :: after → load.1.fetchError.isSome →
        ∀ key ∈ earlier.1.changes.map Refusal.key, key ∈ load.1.changes.map Refusal.key := by
  rw [edgeTriggered_iff_open]
  constructor
  · intro h before earlier load after hloads hfailed key hkey
    obtain ⟨o, published, hreports, -⟩ := reports_alternate numerals (before ++ [earlier]) (.empty : OpenEpisodes Uuid)
    obtain ⟨o₁, published₁, hreport⟩ := reports_concat hreports
    exact h (before ++ [earlier]) load after o published (by simp [hloads]) hreports hfailed key
      ((report_refused hreport key).2 hkey)
  · intro h before load after o published hloads hbefore hfailed key hopen
    rcases List.eq_nil_or_concat before with rfl | ⟨before', earlier, rfl⟩
    · cases hbefore
      exact nomatch hopen
    · rw [List.concat_eq_append] at hloads hbefore
      obtain ⟨o₁, published₁, hreport⟩ := reports_concat hbefore
      exact h before' earlier load after (by simp [hloads]) hfailed key ((report_refused hreport key).1 hopen)

/-- A load that refused one change. -/
def refusedLoad : DatedLoad where
  table := ⟨Table.empty, Table.empty⟩
  refusals := [⟨"m", .input, some 1, 6, some 6, .driftBound, .keptPriorPrice⟩]
  fetchError := none
  staleness := none

/-- A load with no document. -/
def failedLoad : DatedLoad where
  table := ⟨Table.empty, Table.empty⟩
  refusals := []
  fetchError := some "timeout"
  staleness := none

def counted (start : Nat) : Minted Nat := ⟨fun i => start + i, fun i => start + 100 + i⟩

def unwritten : Numerals := ⟨fun _ => "", fun _ => ""⟩

/-- What the refused change leaves open. -/
def afterRefusal : Closing Nat := (reports unwritten .empty [(refusedLoad, counted 0)]).getD (.empty, [])

/-- What the failed fetch makes of it. -/
def afterFailedFetch : Closing Nat := (report unwritten afterRefusal.1 (failedLoad, counted 1000)).getD (.empty, [])

/-- A change is refused, and the next fetch fails: the refused change is reported as over. -/
theorem failed_fetch_closes_refusal :
    ¬ EdgeTriggered unwritten [(refusedLoad, counted 0), (failedLoad, counted 1000)] := by
  intro h
  have hfirst : some afterRefusal = reports unwritten .empty [(refusedLoad, counted 0)] :=
    Option.getD_of_ne_none (Option.isSome_iff_ne_none.1 (by decide +kernel)) _
  have hsecond : some afterFailedFetch = report unwritten afterRefusal.1 (failedLoad, counted 1000) :=
    Option.getD_of_ne_none (Option.isSome_iff_ne_none.1 (by decide +kernel)) _
  have hmem : Edge.recovered 0 ∈ (Condition.refused ("m", .input)).trail afterFailedFetch.2 := by decide +kernel
  have haccepted := h.recovery [(refusedLoad, counted 0)] (failedLoad, counted 1000) [] _ _ rfl hfirst.symm _ _
    hsecond.symm (.refused ("m", .input)) 0 hmem
  exact nomatch haccepted.1

end FactorQ.Pricing
