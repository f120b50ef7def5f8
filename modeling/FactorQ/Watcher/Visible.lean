/-
# `FactorQ.Watcher.Visible` — no issue loses its last label

A move adds a label and then takes one away, so that an issue on the move carries at least the
label it moves into.  That holds as long as nobody takes this label away meanwhile, and two
things can.  A rollback takes back what its own move added, which is all there is if the removal
it answers to did take effect, or if another watcher has made it since.  And of two moves of one
issue in opposite directions, each can take away what the other has just added.

`Undisturbed` excludes the two; under it an issue that was ready carries a label in every state
reached.
-/
import FactorQ.Watcher.System
import FactorQ.Lib.Interleave

namespace FactorQ.Watcher

open Lib

variable {m : Relabelling}

theorem Adapter.move?_ne {w : Adapter} {l : Loop} (h : w.move? l = some m) : m.add ≠ m.remove := by
  obtain ⟨poll, reactor⟩ := w
  cases l with
  | poll =>
    cases poll with
    | claiming _ _ _ | reverting _ _ _ | closing _ _ _ =>
      obtain rfl := Option.some.inj h
      exact fun e => nomatch e
    | moving _ target _ _ _ =>
      obtain rfl := Option.some.inj h
      cases target <;> exact fun e => nomatch e
    | idle | publishing _ _ | reconciling | recalling _ | checking _ _ _ | sweeping | asking _ _ => exact nomatch h
  | reactor =>
    obtain ⟨pc, _, _, _⟩ := reactor
    cases pc with
    | moving _ target _ _ _ =>
      obtain rfl := Option.some.inj h
      cases target <;> exact fun e => nomatch e
    | idle | verifying _ _ => exact nomatch h

/-- The move has added the label to the issue, and has its removal to make. -/
def Relabelling.Into (m : Relabelling) (issue : Nat) (label : Status) : Prop :=
  m.issue = issue ∧ m.add = label ∧ m.stage = .removing

instance (m : Relabelling) (issue : Nat) (label : Status) : Decidable (m.Into issue label) :=
  inferInstanceAs (Decidable (_ ∧ _ ∧ _))

namespace System

variable {ι : Type}

/-- No loop but `t` has a move into the label under way. -/
def Spares (s : System ι) (t : ι × Loop) (issue : Nat) (label : Status) : Prop :=
  ∀ t', t' ≠ t → ∀ m ∈ s.move? t', ¬ m.Into issue label

/-- A request of the move that takes effect takes away no label that another move has just added;
a rollback leaves the label its move was to remove. -/
def Leaves (s : System ι) (t : ι × Loop) (m : Relabelling) : Prop :=
  match m.stage with
  | .adding => True
  | .removing => s.Spares t m.issue m.remove
  | .rollingBack => m.remove ∈ s.hub.labels m.issue ∧ s.Spares t m.issue m.add

/-- The condition on one action, for one issue. -/
def Undisturbed (i : Nat) (s : System ι) (a : Act ι) : Prop :=
  ∀ r ∈ a.request?, r.2 ≠ .failed → ∀ m ∈ s.move? r.1, m.issue = i → s.Leaves r.1 m

section Decide

variable [DecidableEq ι] [Fintype ι]

instance (s : System ι) (t : ι × Loop) (issue : Nat) (label : Status) : Decidable (s.Spares t issue label) :=
  inferInstanceAs (Decidable (∀ t', t' ≠ t → ∀ m ∈ s.move? t', ¬ m.Into issue label))

instance (s : System ι) (t : ι × Loop) (m : Relabelling) : Decidable (s.Leaves t m) :=
  match m with
  | ⟨_, _, _, .adding⟩ => .isTrue trivial
  | ⟨issue, remove, _, .removing⟩ => inferInstanceAs (Decidable (s.Spares t issue remove))
  | ⟨issue, remove, add, .rollingBack⟩ =>
    inferInstanceAs (Decidable (remove ∈ s.hub.labels issue ∧ s.Spares t issue add))

instance (i : Nat) (s : System ι) (a : Act ι) : Decidable (Undisturbed i s a) :=
  inferInstanceAs (Decidable (∀ r ∈ a.request?, r.2 ≠ .failed → ∀ m ∈ s.move? r.1, m.issue = i → s.Leaves r.1 m))

end Decide

/-! ## The invariant -/

/-- The issue carries a label, and in particular each one a move has just added. -/
structure Visible (s : System ι) (i : Nat) : Prop where
  nonempty : (s.hub.labels i).Nonempty
  added : ∀ t, ∀ m ∈ s.move? t, m.issue = i → m.stage = .removing → m.add ∈ s.hub.labels i

variable {reply : Reply}

theorem mem_request {labels : Finset Status} {label : Status} (hmem : label ∈ labels)
    (hremove : reply ≠ .failed → m.stage = .removing → label ≠ m.remove)
    (hback : reply ≠ .failed → m.stage = .rollingBack → label ≠ m.add) : label ∈ (m.request reply labels).1 := by
  obtain ⟨issue, remove, add, stage⟩ := m
  cases stage with
  | adding => cases reply <;> simp [Relabelling.request, hmem]
  | removing =>
    cases reply with
    | done =>
      have hne := hremove (by decide) rfl
      unfold Relabelling.request
      dsimp only
      split
      next => exact Finset.mem_erase.2 ⟨hne, hmem⟩
      next => exact hmem
    | lost => exact Finset.mem_erase.2 ⟨hremove (by decide) rfl, hmem⟩
    | failed => exact hmem
  | rollingBack =>
    cases reply with
    | done | lost => exact Finset.mem_erase.2 ⟨hback (by decide) rfl, hmem⟩
    | failed => exact hmem

theorem request_added {labels : Finset Status} (h : (m.request reply labels).2 = .inl .removing) :
    m.add ∈ (m.request reply labels).1 := by
  obtain ⟨issue, remove, add, stage⟩ := m
  cases stage with
  | adding =>
    cases reply with
    | done => exact Finset.mem_insert_self ..
    | lost | failed => exact nomatch h
  | removing =>
    cases reply with
    | done =>
      unfold Relabelling.request at h
      dsimp only at h
      split at h <;> exact nomatch h
    | lost | failed => exact nomatch h
  | rollingBack => cases reply <;> exact nomatch h

variable {s : System ι}

theorem Visible.kept {t : ι × Loop} (hs : s.Visible m.issue) (hmove : s.move? t = some m)
    (hleaves : reply ≠ .failed → s.Leaves t m) :
    (m.request reply (s.hub.labels m.issue)).1.Nonempty := by
  have hne : m.add ≠ m.remove := Adapter.move?_ne hmove
  cases hstage : m.stage with
  | adding =>
    obtain ⟨label, hlabel⟩ := hs.nonempty
    exact ⟨label, mem_request hlabel (fun _ h => nomatch hstage.symm.trans h) fun _ h => nomatch hstage.symm.trans h⟩
  | removing =>
    have hadd := hs.added t m hmove rfl hstage
    exact ⟨m.add, mem_request hadd (fun _ _ => hne) fun _ h => nomatch hstage.symm.trans h⟩
  | rollingBack =>
    by_cases hreply : reply = .failed
    · obtain ⟨label, hlabel⟩ := hs.nonempty
      exact ⟨label, mem_request hlabel (fun h => absurd hreply h) fun h => absurd hreply h⟩
    · have hl := hleaves hreply
      rw [Leaves, hstage] at hl
      exact ⟨m.remove, mem_request hl.1 (fun _ h => nomatch hstage.symm.trans h) fun _ _ => hne.symm⟩

theorem Visible.kept_other {t t' : ι × Loop} {m m' : Relabelling} (hs : s.Visible m.issue)
    (hleaves : reply ≠ .failed → s.Leaves t m) (ht : t' ≠ t) (hmove' : s.move? t' = some m')
    (hissue : m'.issue = m.issue) (hstage' : m'.stage = .removing) :
    m'.add ∈ (m.request reply (s.hub.labels m.issue)).1 := by
  refine mem_request (hs.added t' m' hmove' hissue hstage') (fun hreply hstage => ?_) fun hreply hstage => ?_
  · have hl := hleaves hreply
    rw [Leaves, hstage] at hl
    exact fun e => hl t' ht m' hmove' ⟨hissue, e, hstage'⟩
  · have hl := hleaves hreply
    rw [Leaves, hstage] at hl
    exact fun e => hl.2 t' ht m' hmove' ⟨hissue, e, hstage'⟩

variable [DecidableEq ι]

theorem Visible.step {cfg : Config} {i : Nat} {a : Act ι} (hok : s.Undisturbed i a) (hs : s.Visible i) :
    (s.step cfg a).Visible i := by
  cases s.step_advance cfg a with
  | still hlabels hmoves =>
    constructor
    · rw [hlabels]
      exact hs.nonempty
    · intro t m hm hissue hstage
      rw [hlabels]
      rcases hmoves t m hm with hadding | hsame
      · exact nomatch hadding.symm.trans hstage
      · exact hs.added t m hsame hissue hstage
  | @request t reply m hrequest hmove hlabels hmoves =>
    by_cases hi : m.issue = i
    · subst hi
      have hleaves : reply ≠ .failed → s.Leaves t m := fun hreply => hok (t, reply) hrequest hreply m hmove rfl
      have hafter : (s.step cfg a).hub.labels m.issue = (m.request reply (s.hub.labels m.issue)).1 := by
        rw [hlabels, Function.update_self]
      constructor
      · rw [hafter]
        exact hs.kept hmove hleaves
      · intro t' m' hm' hissue hstage
        rw [hafter]
        rcases hmoves t' m' hm' with hadding | ⟨ht, hsame⟩ | ⟨stage, hnext, rfl⟩
        · exact nomatch hadding.symm.trans hstage
        · exact hs.kept_other hleaves ht hsame hissue hstage
        · obtain rfl : stage = .removing := hstage
          exact request_added hnext
    · have hafter : (s.step cfg a).hub.labels i = s.hub.labels i := by
        rw [hlabels, Function.update_of_ne (Ne.symm hi)]
      constructor
      · rw [hafter]
        exact hs.nonempty
      · intro t' m' hm' hissue hstage
        rw [hafter]
        rcases hmoves t' m' hm' with hadding | ⟨_, hsame⟩ | ⟨stage, _, rfl⟩
        · exact nomatch hadding.symm.trans hstage
        · exact hs.added t' m' hsame hissue hstage
        · exact absurd hissue hi

omit [DecidableEq ι] in
theorem start_move? (labels : Nat → Finset Status) (now : Nat) (t : ι × Loop) : (start labels now).move? t = none := by
  obtain ⟨w, l⟩ := t
  cases l <;> rfl

/-- **Every run whose requests are undisturbed** leaves an issue that was ready, and that nobody was
moving, with a label. -/
theorem issue_stays_visible (cfg : Config) (s : System ι) (i : Nat) (hready : .ready ∈ s.hub.labels i)
    (hquiet : ∀ t, ∀ m ∈ s.move? t, m.issue ≠ i) (acts : List (Act ι))
    (h : Permitted (System.step cfg) (Undisturbed i) s acts) :
    ((acts.foldl (System.step cfg) s).hub.labels i).Nonempty := by
  have hs : s.Visible i := ⟨⟨.ready, hready⟩, fun t m hm hissue => absurd hissue (hquiet t m hm)⟩
  have hstep : ∀ (s : System ι) (a : Act ι), s.Undisturbed i a → s.Visible i → (s.step cfg a).Visible i :=
    fun s a hok hs => hs.step hok
  exact (h.inv hstep hs).nonempty

/-! ## Runs -/

/-- A removal that fails is rolled back, and the claim is made on the next poll. -/
theorem failed_claim_visible :
    ((([.poll () (.page (some [1])), .poll () (.reply .done), .poll () (.reply .failed), .poll () (.reply .done),
      .poll () (.page none), .poll () (.page none), .poll () (.page (some [1])), .poll () (.reply .done),
      .poll () (.reply .done)] : List (Act Unit)).foldl (System.step defaults) oneReady).hub.labels 1).Nonempty :=
  issue_stays_visible defaults oneReady 1 (by decide)
    (fun t _ h => nomatch (start_move? _ _ t).symm.trans h) _ (by decide +kernel)

/-- Three ways to lose the last label.  The answer to a removal is lost, and the move is rolled back;
a removal fails that another watcher has made, and the move is rolled back; a trigger cannot be
published, and its claim is taken back while another watcher claims the issue. -/
theorem last_label_lost :
    (([.poll () (.page (some [1])), .poll () (.reply .done), .poll () (.reply .lost),
      .poll () (.reply .done)] : List (Act Unit)).foldl (System.step defaults) oneReady).hub.labels 1 = ∅ ∧
    (([.poll 0 (.page (some [1])), .poll 1 (.page (some [1])), .poll 0 (.reply .done), .poll 1 (.reply .done),
      .poll 0 (.reply .done), .poll 1 (.reply .failed), .poll 1 (.reply .done)] : List (Act (Fin 2))).foldl
        (System.step defaults) oneReady).hub.labels 1 = ∅ ∧
    (([.poll 0 (.page (some [1])), .poll 1 (.page (some [1])), .poll 0 (.reply .done), .poll 0 (.reply .done),
      .poll 0 (.reply .failed), .poll 0 (.reply .done), .poll 1 (.reply .done), .poll 1 (.reply .done),
      .poll 0 (.reply .done)] : List (Act (Fin 2))).foldl (System.step defaults) oneReady).hub.labels 1 = ∅ := by
  refine ⟨?_, ?_, ?_⟩ <;> decide +kernel

end System

end FactorQ.Watcher
