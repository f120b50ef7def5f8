/-
# `FactorQ.Store.Integrity` — a read returns what was written, or fails

Races can lose a block that a name relies on, and then reads of the name fail.  They cannot
mix blocks up.  A block file holds the bytes its hash is of, because it is written from a chunk
and never over; a manifest lists the blocks of the content its CID is of, whoever wrote it last.

So whatever writers, collectors and audits do, in any order, failing and crashing anywhere, a
name reads as the content it is bound to or not at all (`reads_are_genuine`).
-/
import FactorQ.Store.LiveInv

namespace FactorQ.Store

open Lib

variable {Cid ι : Type} [LinearOrder Cid] [DecidableEq ι] {H : Hasher Cid} {s : State Cid} {d : Disk Cid}

/-- Every file holds what it is named for. -/
structure Disk.Genuine (H : Hasher Cid) (d : Disk Cid) : Prop where
  block : ∀ k bytes t, d.blockFiles.get? k = some (bytes, t) → k.1 = H.of bytes
  manifest : Shaped H d

/-- A put has chunks left whose hashes are those of their bytes. -/
def Proc.Genuine (H : Hasher Cid) : Proc Cid → Prop
  | writer (.putBlock _ content chunk rest _ _) => ∀ c ∈ chunk :: rest, c.hash = H.of (c.bytes content)
  | _ => True

def World.Genuine (H : Hasher Cid) (w : World Cid ι) : Prop :=
  w.shared.disk.Genuine H ∧ ∀ i, (w.procs i).Genuine H

/-! ## The files -/

namespace Disk.Genuine

theorem removeBlock (h : d.Genuine H) (key : Cid × Nat) : (d.removeBlock key).Genuine H := by
  refine ⟨fun k bytes t hget => ?_, h.manifest⟩
  rw [Disk.removeBlock, Table.get?_erase, Option.ite_none_left_eq_some] at hget
  exact h.block k bytes t hget.2

theorem remove (h : d.Genuine H) (cid : Cid) : (d.remove cid).Genuine H := by
  refine ⟨h.block, fun c m t hget => ?_⟩
  rw [get?_manifests_remove, Option.ite_none_left_eq_some] at hget
  exact h.manifest c m t hget.2

theorem writeBlock (h : d.Genuine H) {key : Cid × Nat} {bytes : Bytes} (hkey : key.1 = H.of bytes) (now : Nat) :
    (d.writeBlock key bytes now).Genuine H := by
  refine ⟨fun k bytes' t hget => ?_, h.manifest⟩
  rw [Disk.writeBlock, Table.get?_insertNew] at hget
  split at hget
  · next heq =>
    subst heq
    -- a file that is there stays
    cases hold : d.blockFiles.get? k with
    | none =>
      rw [hold] at hget
      cases hget
      exact hkey
    | some file =>
      rw [hold] at hget
      cases hget
      exact h.block k _ _ hold
  · exact h.block k bytes' t hget

theorem writeObject (h : d.Genuine H) (content : Bytes) (reserved : List (Cid × Nat)) (now : Nat) :
    (d.writeObject (H.of content) (Writer.putManifest H content reserved) now).Genuine H := by
  refine ⟨h.block, fun cid m t hget => ?_⟩
  rw [get?_manifests_writeObject] at hget
  split at hget
  · next heq =>
    cases hget
    exact ⟨content, heq.symm, List.map_map⟩
  · exact h.manifest cid m t hget

end Disk.Genuine

/-! ## The processes -/

omit [LinearOrder Cid] in
theorem chunk_genuine (content : Bytes) : ∀ c ∈ H.chunk content, c.hash = H.of (c.bytes content) := by
  intro c hc
  unfold Hasher.chunk at hc
  split at hc
  · cases hc
  · obtain ⟨cut, -, rfl⟩ := List.mem_map.mp hc
    rfl

theorem putNext_genuine {name : Name} {content : Bytes} {chunks : List (Chunk Cid)} {reserved : List (Cid × Nat)}
    (h : ∀ c ∈ chunks, c.hash = H.of (c.bytes content)) :
    (Proc.writer (Writer.putNext name content chunks reserved)).Genuine H := by
  unfold Writer.putNext
  split
  · trivial
  · next chunk rest hleft => exact fun c hc => h c ((List.dropWhile_sublist _).subset (hleft ▸ hc))

omit [LinearOrder Cid] in
theorem releasing_genuine (reserved : List (Cid × Nat)) (e : StoreError Cid) :
    (Proc.ofWriter (Writer.releasing reserved e)).Genuine H := by
  cases reserved <;> trivial

omit [LinearOrder Cid] in
theorem aliasNext_genuine (name : Name) (cid : Cid) (hashes : List Cid) (reserved : List (Cid × Nat)) :
    (Proc.writer (Writer.aliasNext name cid hashes reserved)).Genuine H := by
  cases hashes <;> trivial

theorem Writer.step_genuine (pc : Writer Cid) (hd : s.disk.Genuine H) (h : (Proc.writer pc).Genuine H) :
    (pc.step H s).1.disk.Genuine H ∧ (Proc.ofWriter (pc.step H s).2).Genuine H := by
  cases pc with
  | putBlock name content chunk rest reserved point =>
    refine ⟨?_, ?_⟩
    · cases point with
      | writeBlock g => exact hd.writeBlock (h chunk (.head _)) _
      | _ => exact hd
    · dsimp only [Writer.step]
      cases (point.step s chunk.hash (chunk.bytes content)).2 with
      | inl point => exact h
      | inr g => exact putNext_genuine fun c hc => h c (.tail _ hc)
  | putWriteObject name content reserved prevRc => exact ⟨hd.writeObject content reserved _, trivial⟩
  | putBind | aliasBind => exact ⟨hd, trivial⟩
  | releaseObject | releaseBlock => exact ⟨hd, releasing_genuine _ _⟩
  | aliasRead | aliasReserve =>
    refine ⟨hd, ?_⟩
    dsimp only [Writer.step]
    split
    · exact aliasNext_genuine _ _ _ _
    · trivial
  | putReserveObject | aliasReserveObject | aliasHas =>
    refine ⟨hd, ?_⟩
    dsimp only [Writer.step]
    repeat' split
    all_goals first | trivial | exact releasing_genuine _ _
  | unbind name =>
    dsimp only [Writer.step]
    split <;> exact ⟨hd, trivial⟩

theorem Gc.step_genuine (pc : Gc Cid) (hd : s.disk.Genuine H) : (pc.step s).1.disk.Genuine H := by
  cases pc with
  | remove cid => exact hd.remove cid
  | removeBlock key => exact hd.removeBlock key
  | _ => exact hd

theorem Audit.step_genuine (pc : Audit Cid) (hd : s.disk.Genuine H) : (pc.step s).1.disk.Genuine H := by
  cases pc with
  | collect l gc => exact gc.step_genuine hd
  | removeObject l cid => exact hd.remove cid
  | removeBlock l key => exact hd.removeBlock key
  | reapStaging => exact ⟨hd.block, hd.manifest⟩
  | _ => exact hd

theorem Proc.step_genuine (p : Proc Cid) (hd : s.disk.Genuine H) (h : p.Genuine H) :
    (p.step H s).1.disk.Genuine H ∧ (p.step H s).2.Genuine H := by
  cases p with
  | writer pc => exact pc.step_genuine hd h
  | gc pc | audit pc =>
    refine ⟨pc.step_genuine hd, ?_⟩
    dsimp only [Proc.step]
    cases (pc.step s).2 <;> trivial
  | idle | crashed => exact ⟨hd, trivial⟩

omit [LinearOrder Cid] in
theorem Proc.fail_genuine (p : Proc Cid) (e : StoreError Cid) : (p.fail H e).Genuine H := by
  cases p with
  | writer pc =>
    cases pc with
    | releaseObject | releaseBlock => exact releasing_genuine _ _
    | _ => trivial
  | _ => trivial

/-! ## Every run -/

theorem World.Genuine.act {w : World Cid ι} (h : World.Genuine H w) (a : Action Cid ι) :
    World.Genuine H (w.act H a) := by
  have hput : ∀ i s p, s.disk.Genuine H ∧ p.Genuine H → World.Genuine H (w.put i s p) := fun i s p hp =>
    ⟨hp.1, (Function.forall_update_iff w.procs fun _ q => q.Genuine H).mpr ⟨hp.2, fun j _ => h.2 j⟩⟩
  cases a with
  | start i call =>
    dsimp only [World.act]
    split
    · refine hput _ _ _ ⟨h.1, ?_⟩
      cases call with
      | put name content => exact putNext_genuine (chunk_genuine content)
      | _ => trivial
    · exact h
  | step i => exact hput _ _ _ ((w.procs i).step_genuine h.1 (h.2 i))
  | fail i e => exact hput _ _ _ ⟨h.1, (w.procs i).fail_genuine e⟩
  | crash i =>
    refine hput _ _ _ ⟨h.1, ?_⟩
    cases w.procs i <;> trivial
  | tick dt => exact h

theorem World.genuine_run (schedule : List (Action Cid ι)) : World.Genuine H (World.init.run H schedule) := by
  refine List.foldlRecOn schedule _ ⟨⟨?_, ?_⟩, fun _ => trivial⟩ fun w h a _ => h.act a
  · rintro k bytes t ⟨⟩
  · rintro cid m t ⟨⟩

/-! ## Reading -/

/-- The loop over the blocks, where `s i` is the store that call number `i` finds. -/
def readBlocks (H : Hasher Cid) (s : Nat → State Cid) (cid : Cid) (blocks : List (BlockRef Cid × Nat)) :
    Except (StoreError Cid) (List Bytes) :=
  blocks.mapM fun b => (s (b.2 + 2)).disk.readBlock H cid b.1

/-- `Repository::get`, call by call. -/
def getDuring (H : Hasher Cid) (s : Nat → State Cid) (name : Name) : Except (StoreError Cid) Bytes :=
  match (s 0).index.resolve name with
  | some cid => do
      let manifest ← (s 1).disk.readManifest cid
      let parts ← readBlocks H s cid manifest.blocks.zipIdx
      return parts.flatten
  | none => .error (.nameNotFound name)

variable {cid : Cid} {bytes : Bytes}

omit [LinearOrder Cid] in
theorem ok_of_read {α β : Type} {x : Except (StoreError Cid) α} {f : α → Except (StoreError Cid) β} {b : β}
    (h : (x >>= f) = .ok b) : ∃ a, x = .ok a ∧ f a = .ok b := by
  cases x with
  | error e => cases h
  | ok a => exact ⟨a, rfl, h⟩

theorem Disk.Genuine.readManifest (h : d.Genuine H) {m : Manifest Cid} (hread : d.readManifest cid = .ok m) :
    ∃ content, H.of content = cid ∧ m.blocks.map BlockRef.hash = (H.chunk content).map Chunk.hash := by
  unfold Disk.readManifest at hread
  split at hread
  · next hfile =>
    cases hread
    exact h.manifest _ _ _ hfile
  · cases hread

theorem Disk.Genuine.readBlock (h : d.Genuine H) {block : BlockRef Cid} (hread : d.readBlock H cid block = .ok bytes) :
    H.of bytes = block.hash := by
  unfold Disk.readBlock at hread
  split at hread
  · next hfile =>
    cases hread
    exact (h.block _ _ _ hfile).symm
  · cases hread

section During

variable {s : Nat → State Cid} (h : ∀ i, (s i).disk.Genuine H)

include h

/-- Blocks read one after the other hash to what the manifest lists. -/
theorem readBlocks_genuine {blocks : List (BlockRef Cid × Nat)} {parts : List Bytes}
    (hread : readBlocks H s cid blocks = .ok parts) : parts.map H.of = blocks.map fun b => b.1.hash := by
  induction blocks generalizing parts with
  | nil =>
    cases hread
    rfl
  | cons b blocks ih =>
    rw [readBlocks, List.mapM_cons] at hread
    obtain ⟨first, hfirst, hread⟩ := ok_of_read hread
    obtain ⟨rest, hrest, hret⟩ := ok_of_read hread
    cases hret
    rw [List.map_cons, List.map_cons, (h _).readBlock hfirst, ih hrest]

theorem getDuring_genuine {name : Name} (hget : getDuring H s name = .ok bytes) :
    (s 0).index.resolve name = some (H.of bytes) := by
  unfold getDuring at hget
  split at hget
  · next cid hname =>
    obtain ⟨m, hm, hget⟩ := ok_of_read hget
    obtain ⟨parts, hread, hret⟩ := ok_of_read hget
    cases hret
    obtain ⟨content, rfl, hblocks⟩ := (h 1).readManifest hm
    have hparts : parts = (H.chunk content).map fun c => c.bytes content := by
      refine List.map_injective_iff.mpr H.of_injective ?_
      calc parts.map H.of = (m.blocks.zipIdx.map Prod.fst).map BlockRef.hash := by
            rw [readBlocks_genuine h hread, List.map_map]
            rfl
        _ = (H.chunk content).map Chunk.hash := by rw [List.zipIdx_map_fst, hblocks]
        _ = ((H.chunk content).map fun c => c.bytes content).map H.of := by
            rw [List.map_map]
            exact List.map_congr_left (chunk_genuine content)
    rw [hname, hparts, H.chunk_bytes]
  · cases hget

end During

/-- A name that can be read is bound, when the read begins, to the content that is read,
whatever happens to the store between the calls. -/
theorem reads_are_genuine (H : Hasher Cid) (schedules : Nat → List (Action Cid ι)) (name : Name) (bytes : Bytes)
    (hget : getDuring H (fun i => (World.init.run H (schedules i)).shared) name = .ok bytes) :
    (World.init.run H (schedules 0)).shared.index.resolve name = some (H.of bytes) :=
  getDuring_genuine (fun i => (World.genuine_run (schedules i)).1) hget

/-- The name is unbound while it is read. -/
def unboundMeanwhile (i : Nat) : List (Action ℕ (Fin 3)) :=
  Action.start 0 (.put "a" [7]) :: .replicate 7 (.step 0) ++ if i = 0 then [] else [.start 1 (.unbind "a"), .step 1]

theorem unboundMeanwhile_genuine :
    (World.init.run Hasher.numerals (unboundMeanwhile 0)).shared.index.resolve "a" = some (Hasher.numerals.of [7]) :=
  reads_are_genuine _ unboundMeanwhile "a" [7] (by decide +kernel)

end FactorQ.Store
