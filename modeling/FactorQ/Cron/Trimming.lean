/-
# `FactorQ.Cron.Trimming` — what a ledger may forget

A publication rewrites the ledger of its job: what has left the window goes, and of the rest the
newest are kept, as many as the ceiling.  The valve counts over all jobs, and when it is closed
it looks for the instant so many places from the end.  Nothing that was cut off can matter to
either, as long as publications come in the order of their instants and the ceiling is not raised.

`Trim` is what is known of one ledger beside the whole history of its job: what it has lost came
first, and has left the window or has as many kept after it as the ceiling.  Over all jobs this
makes the lost instants the ones `drop_eq_of_perm` does not see.
-/
import FactorQ.Cron.Valve

namespace FactorQ.Cron

open Lib

inductive LedgerEntry where
  | published (job : String) (scheduled publishedAt limit : Int)
  | superseded (job : String) (scheduled : Int)

namespace LedgerEntry

def job : LedgerEntry → String
  | published job .. | superseded job _ => job

/-- When it was published, if it was. -/
def instant : LedgerEntry → Option Int
  | published _ _ publishedAt _ => some publishedAt
  | superseded .. => none

/-- The limit in force at a publication. -/
def ceiling : LedgerEntry → Option Nat
  | published _ _ _ limit => some (effectiveLimit limit)
  | superseded .. => none

end LedgerEntry

/-- The state after a publish, with nothing forgotten. -/
def keepFire (previous : FireState) (scheduled publishedAt : Int) : FireState :=
  ⟨scheduled, publishedAt, countedFires previous ++ [publishedAt]⟩

def writeTrimmed (state : States) : LedgerEntry → States
  | .published job scheduled publishedAt limit =>
    state.set job (recordFire (States.at state job) scheduled publishedAt limit)
  | .superseded job scheduled => state.set job (supersedeFire (States.at state job) scheduled)

def writeComplete (state : States) : LedgerEntry → States
  | .published job scheduled publishedAt _ => state.set job (keepFire (States.at state job) scheduled publishedAt)
  | .superseded job scheduled => state.set job (supersedeFire (States.at state job) scheduled)

def trimmed (entries : List LedgerEntry) : States := entries.foldl writeTrimmed .empty

def complete (entries : List LedgerEntry) : States := entries.foldl writeComplete .empty

/-- The limit in force when the ledger of a job was last written. -/
def lastCeiling (entries : List LedgerEntry) (name : String) : Nat :=
  ((entries.filter fun e => e.job = name).filterMap LedgerEntry.ceiling).getLast?.getD 0

/-! ## One ledger -/

structure Trim (upTo : Int) (limit : Nat) (full kept : List Int) : Prop where
  ordered : full.Pairwise (· ≤ ·)
  past : ∀ a ∈ full, a ≤ upTo
  cut : ∃ lost, full = lost ++ kept ∧ ((∀ a ∈ lost, a ≤ upTo - valveWindow) ∨ limit ≤ kept.length)

/-- The ledger a publication writes. -/
def cutLedger (publishedAt : Int) (limit : Nat) (counted : List Int) : List Int :=
  let ledger := since (publishedAt - valveWindow) counted ++ [publishedAt]
  if ledger.length > limit then ledger.drop (ledger.length - limit) else ledger

theorem length_cutLedger_le (publishedAt : Int) (limit : Nat) (counted : List Int) :
    (cutLedger publishedAt limit counted).length ≤ limit := by
  rw [cutLedger]
  split
  · rw [List.length_drop]
    omega
  · omega

theorem recentFires_recordFire (previous : FireState) (scheduled publishedAt limit : Int) :
    (recordFire previous scheduled publishedAt limit).recentFires =
      cutLedger publishedAt (effectiveLimit limit) (countedFires previous) := rfl

theorem countedFires_written (previous : FireState) (scheduled publishedAt limit : Int) :
    countedFires (recordFire previous scheduled publishedAt limit) =
      cutLedger publishedAt (effectiveLimit limit) (countedFires previous) := by
  have hpos := effectiveLimit_pos limit
  rw [countedFires, recentFires_recordFire, if_pos]
  rw [cutLedger]
  split
  · refine List.ne_nil_of_length_pos ?_
    rw [List.length_drop]
    omega
  · simp

namespace Trim

variable {upTo upTo' : Int} {limit limit' : Nat} {full kept : List Int}

theorem nil (upTo : Int) (limit : Nat) : Trim upTo limit [] [] :=
  ⟨.nil, fun _ ha => absurd ha List.not_mem_nil, [], rfl, .inl fun _ ha => absurd ha List.not_mem_nil⟩

theorem mono (h : Trim upTo limit full kept) (hup : upTo ≤ upTo') (hlimit : limit' ≤ limit) :
    Trim upTo' limit' full kept := by
  obtain ⟨lost, hfull, hlost⟩ := h.cut
  refine ⟨h.ordered, fun a ha => (h.past a ha).trans hup, lost, hfull, ?_⟩
  rcases hlost with hout | hmany
  · exact .inl fun a ha => (hout a ha).trans (by omega)
  · exact .inr (hlimit.trans hmany)

theorem publish (h : Trim upTo limit full kept) : Trim upTo limit (full ++ [upTo]) (cutLedger upTo limit kept) := by
  obtain ⟨lost, rfl, hlost⟩ := h.cut
  obtain ⟨-, hkept, hbefore⟩ := List.pairwise_append.1 h.ordered
  obtain ⟨old, hold, hout⟩ := exists_append_since hkept (upTo - valveWindow)
  refine ⟨List.pairwise_append.2 ⟨h.ordered, List.pairwise_singleton _ _, ?_⟩, ?_, ?_⟩
  · intro a ha b hb
    rw [List.mem_singleton.1 hb]
    exact h.past a ha
  · intro a ha
    rcases List.mem_append.1 ha with ha | ha
    · exact h.past a ha
    · exact (List.mem_singleton.1 ha).le
  have hledger : lost ++ kept ++ [upTo] = (lost ++ old) ++ (since (upTo - valveWindow) kept ++ [upTo]) := by
    conv_lhs => rw [hold]
    simp only [List.append_assoc]
  rw [cutLedger]
  split
  · next hlong =>
    -- the trim leaves as many as the ceiling
    generalize since (upTo - valveWindow) kept ++ [upTo] = ledger at hledger hlong ⊢
    refine ⟨lost ++ old ++ ledger.take (ledger.length - limit), ?_, .inr ?_⟩
    · rw [hledger, List.append_assoc (lost ++ old), List.take_append_drop]
    · rw [List.length_drop]
      omega
  · refine ⟨lost ++ old, hledger, ?_⟩
    cases hold' : old with
    | nil =>
      rw [hold', List.nil_append] at hold
      rcases hlost with hgone | hmany
      · exact .inl (by simpa using hgone)
      · refine .inr ?_
        rw [← hold, List.length_append]
        omega
    | cons a rest =>
      -- something has left the window, so everything before it has
      have ha : a ∈ old := by simp [hold']
      refine .inl fun b hb => ?_
      rcases List.mem_append.1 hb with hb | hb
      · refine (hbefore b hb a ?_).trans (hout a ha)
        rw [hold]
        exact List.mem_append_left _ ha
      · exact hout b (hold' ▸ hb)

/-- What is missing from the window has as many kept at or after it as the ceiling. -/
theorem window (h : Trim upTo limit full kept) : ∃ lost,
    Lib.window valveWindow upTo full = lost ++ Lib.window valveWindow upTo kept ∧
      ∀ a ∈ lost, limit ≤ ((Lib.window valveWindow upTo kept).filter fun b => a ≤ b).length := by
  obtain ⟨lost, rfl, hlost⟩ := h.cut
  obtain ⟨-, -, hbefore⟩ := List.pairwise_append.1 h.ordered
  refine ⟨Lib.window valveWindow upTo lost, List.filter_append .., fun a ha => ?_⟩
  obtain ⟨ha, hin⟩ := List.mem_filter.1 ha
  have hin := of_decide_eq_true hin
  rcases hlost with hgone | hmany
  · exact absurd hin.1 (not_lt.2 (hgone a ha))
  · have hall : (Lib.window valveWindow upTo kept).filter (fun b => a ≤ b) = kept := by
      rw [Lib.window, List.filter_filter]
      refine List.filter_eq_self.2 fun b hb => ?_
      have hab := hbefore a ha b hb
      have hb := h.past b (List.mem_append_right _ hb)
      simp [hab, hb, hin.1.trans_le hab]
    rwa [hall]

end Trim

/-! ## The ledgers of a history -/

/-- Publications at instants that do not go back, under a limit that is not raised. -/
structure History (entries : List LedgerEntry) : Prop where
  order : (entries.filterMap LedgerEntry.instant).Pairwise (· ≤ ·)
  lowered : (entries.filterMap LedgerEntry.ceiling).Pairwise (· ≥ ·)

/-- `now` is not before any publication, and `limit` not above any limit there was. -/
structure Bounds (entries : List LedgerEntry) (now : Int) (limit : Nat) : Prop where
  now : ∀ t ∈ entries.filterMap LedgerEntry.instant, t ≤ now
  limit : ∀ l ∈ entries.filterMap LedgerEntry.ceiling, limit ≤ l

variable {entries : List LedgerEntry} {e : LedgerEntry}

theorem trimmed_concat (entries : List LedgerEntry) (e : LedgerEntry) :
    trimmed (entries ++ [e]) = writeTrimmed (trimmed entries) e := by
  rw [trimmed, List.foldl_append]
  rfl

theorem complete_concat (entries : List LedgerEntry) (e : LedgerEntry) :
    complete (entries ++ [e]) = writeComplete (complete entries) e := by
  rw [complete, List.foldl_append]
  rfl

theorem History.of_concat (h : History (entries ++ [e])) : History entries := by
  refine ⟨?_, ?_⟩
  · have horder := h.order
    rw [List.filterMap_append] at horder
    exact (List.pairwise_append.1 horder).1
  · have hlowered := h.lowered
    rw [List.filterMap_append] at hlowered
    exact (List.pairwise_append.1 hlowered).1

theorem Bounds.of_concat {now : Int} {limit : Nat} (h : Bounds (entries ++ [e]) now limit) : Bounds entries now limit := by
  refine ⟨fun t ht => h.now t ?_, fun l hl => h.limit l ?_⟩
  · rw [List.filterMap_append]
    exact List.mem_append_left _ ht
  · rw [List.filterMap_append]
    exact List.mem_append_left _ hl

theorem History.bounds {job : String} {scheduled publishedAt limit : Int}
    (h : History (entries ++ [.published job scheduled publishedAt limit])) :
    Bounds entries publishedAt (effectiveLimit limit) := by
  refine ⟨fun t ht => ?_, fun l hl => ?_⟩
  · have horder := h.order
    rw [List.filterMap_append] at horder
    exact (List.pairwise_append.1 horder).2.2 t ht publishedAt (List.mem_singleton_self _)
  · have hlowered := h.lowered
    rw [List.filterMap_append] at hlowered
    exact (List.pairwise_append.1 hlowered).2.2 l hl (effectiveLimit limit) (List.mem_singleton_self _)

theorem History.trim (h : History entries) {now : Int} {limit : Nat} (hb : Bounds entries now limit) (name : String) :
    Trim now limit (countedFires (States.at (complete entries) name)) (countedFires (States.at (trimmed entries) name)) := by
  induction entries using List.reverseRecOn generalizing now limit with
  | nil => exact .nil now limit
  | append_singleton entries e ih =>
    rw [trimmed_concat, complete_concat]
    cases e with
    | published job scheduled publishedAt limit₁ =>
      rw [writeTrimmed, writeComplete, States.at_set, States.at_set]
      split
      · next hname =>
        subst hname
        have hmono := (ih h.of_concat h.bounds).publish
        have hcounted : countedFires (keepFire (States.at (complete entries) name) scheduled publishedAt) =
            countedFires (States.at (complete entries) name) ++ [publishedAt] := by
          rw [countedFires, if_pos (by simp [keepFire])]
          rfl
        rw [countedFires_written, hcounted]
        refine hmono.mono (hb.now publishedAt ?_) (hb.limit _ ?_)
        · simp [LedgerEntry.instant]
        · simp [LedgerEntry.ceiling]
      · exact ih h.of_concat hb.of_concat
    | superseded job scheduled =>
      rw [writeTrimmed, writeComplete, States.at_set, States.at_set]
      split
      · next hname =>
        subst hname
        exact ih h.of_concat hb.of_concat
      · exact ih h.of_concat hb.of_concat

/-- Both states have the same rows, up to what is in the ledgers. -/
theorem get?_slot (entries : List LedgerEntry) (name : String) :
    ((trimmed entries).get? name).map FireState.lastScheduled =
      ((complete entries).get? name).map FireState.lastScheduled := by
  induction entries using List.reverseRecOn with
  | nil => rfl
  | append_singleton entries e ih =>
    rw [trimmed_concat, complete_concat]
    cases e with
    | published job scheduled publishedAt limit =>
      rw [writeTrimmed, writeComplete, Table.get?_set, Table.get?_set]
      split
      · rfl
      · exact ih
    | superseded job scheduled =>
      rw [writeTrimmed, writeComplete, Table.get?_set, Table.get?_set]
      split
      · rfl
      · exact ih

theorem length_recentFires_le (entries : List LedgerEntry) (name : String) :
    (States.at (trimmed entries) name).recentFires.length ≤ lastCeiling entries name := by
  induction entries using List.reverseRecOn with
  | nil => exact Nat.le_refl 0
  | append_singleton entries e ih =>
    rw [trimmed_concat]
    cases e with
    | published job scheduled publishedAt limit =>
      rw [writeTrimmed, States.at_set]
      split
      · next hname =>
        subst hname
        rw [recentFires_recordFire]
        refine (length_cutLedger_le _ _ _).trans_eq ?_
        simp [lastCeiling, LedgerEntry.job, LedgerEntry.ceiling]
      · next hname =>
        refine ih.trans_eq ?_
        simp [lastCeiling, LedgerEntry.job, Ne.symm hname]
    | superseded job scheduled =>
      have hsame : lastCeiling (entries ++ [.superseded job scheduled]) name = lastCeiling entries name := by
        by_cases hname : job = name <;>
          simp [lastCeiling, List.filterMap_append, LedgerEntry.job, LedgerEntry.ceiling, hname]
      rw [hsame, writeTrimmed, States.at_set]
      split
      · next hname =>
        subst hname
        exact ih
      · exact ih

/-! ## The plan -/

theorem candidates_congr {lib : Libraries} {now : Int} {fuel : Nat} {state state' : States}
    (h : ∀ name, (state.get? name).map FireState.lastScheduled = (state'.get? name).map FireState.lastScheduled)
    (jobs : List Job) : candidates lib now fuel state jobs = candidates lib now fuel state' jobs := by
  have hchoose : ∀ next catchUp name, chooseSlot next catchUp now fuel (state.get? name) =
      chooseSlot next catchUp now fuel (state'.get? name) := by
    intro next catchUp name
    have hname := h name
    cases hrow : state.get? name with
    | none =>
      rw [hrow] at hname
      rw [Option.map_eq_none_iff.1 hname.symm]
    | some row =>
      rw [hrow] at hname
      obtain ⟨row', hrow', hlast⟩ := Option.map_eq_some_iff.1 hname.symm
      rw [hrow', chooseSlot, chooseSlot, hlast]
  induction jobs with
  | nil => rfl
  | cons job jobs ih =>
    have hfirst : candidate lib now fuel state job = candidate lib now fuel state' job := by
      unfold candidate
      simp only [hchoose]
    rw [candidates, candidates, ih, hfirst]

theorem pairwise_firesInWindow (state : States) (now : Int) : (firesInWindow state now).Pairwise (· ≤ ·) :=
  List.pairwise_insertionSort _ _

theorem firesInWindow_perm {state : States} {names : List String} (hnodup : names.Nodup)
    (hnames : ∀ name row, state.get? name = some row → name ∈ names) (now : Int) :
    (firesInWindow state now).Perm
      (names.flatMap fun name => window valveWindow now (countedFires (States.at state name))) := by
  refine (List.perm_insertionSort _ _).trans ?_
  have hread := Table.flatMap_rows_perm hnodup hnames fun row => window valveWindow now (countedFires row)
  refine hread.trans (.of_eq (List.flatMap_congr fun name _ => ?_))
  rw [States.at]
  cases state.get? name with
  | none => rfl
  | some row => simp

theorem mem_jobs_of_get? {write : States → LedgerEntry → States}
    (hwrite : ∀ state e, ∃ row, write state e = state.set e.job row) {entries : List LedgerEntry} {name : String}
    {row : FireState} (h : (entries.foldl write .empty).get? name = some row) :
    name ∈ (entries.map LedgerEntry.job).dedup := by
  rw [List.mem_dedup]
  induction entries using List.reverseRecOn generalizing row with
  | nil => cases h
  | append_singleton entries e ih =>
    rw [List.foldl_append] at h
    obtain ⟨row', hrow'⟩ := hwrite (entries.foldl write .empty) e
    rw [List.foldl_cons, List.foldl_nil, hrow', Table.get?_set] at h
    rw [List.map_append]
    split at h
    · next hname =>
      rw [hname]
      exact List.mem_append_right _ (List.mem_singleton_self _)
    · exact List.mem_append_left _ (ih h)

theorem writeTrimmed_set (state : States) (e : LedgerEntry) : ∃ row, writeTrimmed state e = state.set e.job row := by
  cases e with
  | published job scheduled publishedAt limit => exact ⟨_, rfl⟩
  | superseded job scheduled => exact ⟨_, rfl⟩

theorem writeComplete_set (state : States) (e : LedgerEntry) : ∃ row, writeComplete state e = state.set e.job row := by
  cases e with
  | published job scheduled publishedAt limit => exact ⟨_, rfl⟩
  | superseded job scheduled => exact ⟨_, rfl⟩

/-- The complete window is the trimmed one and instants that do not matter to the limit. -/
theorem History.windows (h : History entries) {now : Int} {limit : Nat} (hb : Bounds entries now limit) :
    ∃ lost, (firesInWindow (complete entries) now).Perm (lost ++ firesInWindow (trimmed entries) now) ∧
      ∀ a ∈ lost, limit ≤ ((firesInWindow (trimmed entries) now).filter fun b => a ≤ b).length := by
  have hcomplete : (firesInWindow (complete entries) now).Perm ((entries.map LedgerEntry.job).dedup.flatMap
      fun name => window valveWindow now (countedFires (States.at (complete entries) name))) :=
    firesInWindow_perm (List.nodup_dedup _) (fun name row hrow => mem_jobs_of_get? writeComplete_set hrow) now
  have htrimmed : (firesInWindow (trimmed entries) now).Perm ((entries.map LedgerEntry.job).dedup.flatMap
      fun name => window valveWindow now (countedFires (States.at (trimmed entries) name))) :=
    firesInWindow_perm (List.nodup_dedup _) (fun name row hrow => mem_jobs_of_get? writeTrimmed_set hrow) now
  choose lost hwindow hmany using fun name => (h.trim hb name).window
  refine ⟨(entries.map LedgerEntry.job).dedup.flatMap lost, ?_, fun a ha => ?_⟩
  · refine hcomplete.trans ?_
    simp only [hwindow]
    exact (List.flatMap_append_perm _ _ _).symm.trans (htrimmed.symm.append_left _)
  · obtain ⟨name, hname, ha⟩ := List.mem_flatMap.1 ha
    refine (hmany name a ha).trans ?_
    rw [(htrimmed.filter _).length_eq]
    have hsub := List.sublist_flatten_of_mem (List.mem_map_of_mem
      (f := fun name => window valveWindow now (countedFires (States.at (trimmed entries) name))) hname)
    exact (hsub.filter _).length_le

/-- A plan looks at the number of instants in the window, and at the one the limit is reached with. -/
theorem reopening_eq {l full lost : List Int} {limit : Nat} (hl : l.Pairwise (· ≤ ·)) (hfull : full.Pairwise (· ≤ ·))
    (hperm : full.Perm (lost ++ l))
    (hlost : ∀ a ∈ lost, limit ≤ (l.filter fun b => a ≤ b).length) :
    full = l ∨ limit ≤ l.length ∧ limit ≤ full.length ∧ full.getD (full.length - limit) 0 = l.getD (l.length - limit) 0 := by
  cases lost with
  | nil => exact .inl (hperm.eq_of_pairwise (fun a b _ _ => le_antisymm) hfull hl)
  | cons a lost =>
    have hn : limit ≤ l.length := (hlost a List.mem_cons_self).trans (List.length_filter_le _ _)
    have hlen := hperm.length_eq
    rw [List.length_append] at hlen
    have hdrop := drop_eq_of_perm hl hfull hperm hlost hn
    have hread : ∀ (xs : List Int) (i : Nat), xs.getD i 0 = (xs.drop i).head?.getD 0 := by
      intro xs i
      rw [List.head?_drop, List.getD_eq_getElem?_getD]
    exact .inr ⟨hn, by omega, by rw [hread, hread, hdrop]⟩

/-- Publications at instants that do not go back, with slots superseded in between and under a
limit that is not raised: from the last of them on, the plan from the trimmed ledgers is the plan
from the complete history, and no ledger is longer than the limit it was last written under. -/
theorem trimming_loses_nothing (lib : Libraries) (config : Config) (entries : List LedgerEntry) (hhistory : History entries)
    (now : Int) (fuel : Nat) (hbounds : Bounds entries now (effectiveLimit config.maxFiresPerHour)) :
    plan lib now fuel config (trimmed entries) = plan lib now fuel config (complete entries) ∧
      ∀ name, (States.at (trimmed entries) name).recentFires.length ≤ lastCeiling entries name := by
  refine ⟨?_, length_recentFires_le entries⟩
  obtain ⟨lost, hperm, hlost⟩ := hhistory.windows hbounds
  have hwindow := reopening_eq (pairwise_firesInWindow (trimmed entries) now)
    (pairwise_firesInWindow (complete entries) now) hperm hlost
  rw [plan, plan, candidates_congr (get?_slot entries)]
  cases candidates lib now fuel (complete entries) config.jobs with
  | none => rfl
  | some fires =>
    dsimp only
    rcases hwindow with hsame | ⟨htrimmed, hcomplete, hreopens⟩
    · rw [hsame]
    · rw [if_pos htrimmed, if_pos hcomplete, hreopens]

/-- Publications under a limit that is lowered from two to one, so that the last cuts its ledger. -/
def loweredLimit : List LedgerEntry :=
  [.published "report" valveWindow 10 2, .superseded "report" (2 * valveWindow), .published "sweep" valveWindow 20 2,
    .published "report" (3 * valveWindow) 20 1]

theorem lowered_limit_planned :
    (States.at (trimmed loweredLimit) "report").recentFires = [20] ∧
    (States.at (complete loweredLimit) "report").recentFires = [10, 20] ∧
    plan hourly 30 3 ⟨1, [hourlyJob "report" "skip"], by simp⟩ (trimmed loweredLimit) =
      plan hourly 30 3 ⟨1, [hourlyJob "report" "skip"], by simp⟩ (complete loweredLimit) :=
  ⟨by decide +kernel, by decide +kernel,
    (trimming_loses_nothing hourly ⟨1, [hourlyJob "report" "skip"], by simp⟩ loweredLimit ⟨by decide, by decide⟩ 30 3
      ⟨by decide, by decide⟩).1⟩

end FactorQ.Cron
