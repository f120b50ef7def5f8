/-
# `Lib.FileTree` — file trees and the resolution of pathnames

A tree of directories, files, symbolic links and other objects, given by what stands at
each list of names from the root.  Only directories have children, which the structure
carries as a law, so that what lies above an existing object is known to be a directory.

A path is what somebody wrote: whether it starts with a slash, and the pieces between the
slashes, the empty ones of repeated and trailing slashes included.  Resolution walks the
pieces from a directory.  It needs a directory wherever a piece is left, so that a trailing
slash asserts one; it replaces a link by the pieces of its target, as often as the system
allows; and it leaves a final link alone if it is told not to follow.

`Resolves` is the relation of successful walks, and `walk_eq_ok` ties it to the function.
What is proved of walks is proved by induction on it: a walk ends at an object, a walk can
be cut in two, and a tree in which the same things are found gives the same walk.
-/
import Mathlib.Data.List.DropRight
import Mathlib.Tactic

namespace Lib.FileTree

/-! ## Paths -/

inductive Piece (Name : Type) where
  /-- between two slashes, or after the last one -/
  | empty
  | dot
  | dotdot
  | name (n : Name)
deriving DecidableEq

/-- A piece that leads nowhere else. -/
def Piece.idle {Name : Type} : Piece Name → Bool
  | empty => true
  | dot => true
  | dotdot => false
  | name _ => false

/-- A path as written: `a//b/` is relative, with the pieces `a`, empty, `b`, empty; `/` is
absolute and has no pieces. -/
structure Path (Name : Type) where
  absolute : Bool
  pieces : List (Piece Name)
deriving DecidableEq

namespace Path

variable {Name : Type}

/-- Where the path starts, seen from a directory. -/
def start (p : Path Name) (here : List Name) : List Name := if p.absolute then [] else here

/-- The absolute path of a list of names. -/
def ofNames (q : List Name) : Path Name := ⟨true, q.map .name⟩

/-- A relative path that starts with a dot. -/
def startsWithDot : Path Name → Bool
  | ⟨false, .dot :: _⟩ => true
  | _ => false

/-- Without the slashes and dots at the end; the dot that a relative path starts with is
kept. -/
def trim (p : Path Name) : Path Name :=
  let pieces := p.pieces.rdropWhile Piece.idle
  ⟨p.absolute, if pieces.isEmpty && p.startsWithDot then [.dot] else pieces⟩

def parent (p : Path Name) : Option (Path Name) :=
  match p.trim.pieces with
  | [] => none
  | x :: ps => some (trim ⟨p.absolute, (x :: ps).dropLast⟩)

def fileName (p : Path Name) : Option Name :=
  match p.trim.pieces.getLast? with
  | some (.name n) => some n
  | _ => none

theorem trim_spec (p : Path Name) :
    p.trim.absolute = p.absolute ∧ ∃ idles, (∀ x ∈ idles, x.idle = true) ∧ p.pieces = p.trim.pieces ++ idles := by
  refine ⟨rfl, ?_⟩
  dsimp only [trim]
  split
  · next hdot =>
    rw [Bool.and_eq_true, List.isEmpty_iff, List.rdropWhile_eq_nil_iff] at hdot
    obtain ⟨hidle, hstart⟩ := hdot
    match p, hidle, hstart with
    | ⟨false, .dot :: ps⟩, hidle, _ => exact ⟨ps, fun x hx => hidle x (List.mem_cons_of_mem _ hx), rfl⟩
  · exact ⟨p.pieces.rtakeWhile Piece.idle, fun x hx => List.mem_rtakeWhile_imp hx,
      (List.rdropWhile_append_rtakeWhile ..).symm⟩

/-- The final name of a path, what stands before it and what stands after it. -/
theorem parent_fileName_spec {p q : Path Name} {n : Name} (hparent : p.parent = some q) (hname : p.fileName = some n) :
    q.absolute = p.absolute ∧ ∃ before after, (∀ x ∈ before, x.idle = true) ∧ (∀ x ∈ after, x.idle = true) ∧
      p.pieces = q.pieces ++ before ++ .name n :: after := by
  obtain ⟨-, after, hafter, hpieces⟩ := p.trim_spec
  unfold fileName at hname
  split at hname
  · next n' hlast =>
    cases hname
    obtain ⟨front, hfront⟩ := List.getLast?_eq_some_iff.mp hlast
    unfold parent at hparent
    split at hparent
    · cases hparent
    · next x ps hcons =>
      cases hparent
      obtain ⟨habs, before, hbefore, hcut⟩ := trim_spec ⟨p.absolute, (x :: ps).dropLast⟩
      refine ⟨habs, before, after, hbefore, hafter, ?_⟩
      rw [← hcut, ← hcons, hpieces, hfront, List.dropLast_concat, List.append_assoc]
      rfl
  · cases hname

end Path

/-! ## Trees -/

inductive Object (Name Content Special : Type) where
  | dir
  | file (content : Content)
  | symlink (target : Path Name)
  /-- a pipe, a socket, a device -/
  | special (kind : Special)

namespace Object

variable {Name Content Special : Type}

def isDir : Object Name Content Special → Bool
  | dir => true
  | _ => false

def isFile : Object Name Content Special → Bool
  | file _ => true
  | _ => false

def isSymlink : Object Name Content Special → Bool
  | symlink _ => true
  | _ => false

theorem eq_symlink {o : Object Name Content Special} (h : o.isSymlink = true) : ∃ target, o = .symlink target := by
  cases o with
  | symlink target => exact ⟨target, rfl⟩
  | _ => cases h

end Object

/-- What stands at each list of names from the root. -/
structure Tree (Name Content Special : Type) where
  get : List Name → Option (Object Name Content Special)
  root : get [] = some .dir
  above : ∀ q n o, get (q ++ [n]) = some o → get q = some .dir

variable {Name Content Special : Type}

namespace Tree

variable {t : Tree Name Content Special}

def isDir (t : Tree Name Content Special) (q : List Name) : Bool := (t.get q).any Object.isDir

theorem isDir_iff {q : List Name} : t.isDir q = true ↔ t.get q = some .dir := by
  unfold isDir
  cases t.get q with
  | none => simp
  | some o => cases o <;> simp [Object.isDir]

theorem get_above {q r : List Name} {o : Object Name Content Special} (h : t.get (q ++ r) = some o) (hr : r ≠ []) :
    t.get q = some .dir := by
  induction r using List.reverseRecOn generalizing o with
  | nil => exact absurd rfl hr
  | append_singleton r n ih =>
    rw [← List.append_assoc] at h
    have hdir := t.above _ _ _ h
    by_cases hr' : r = []
    · rw [hr', List.append_nil] at hdir
      exact hdir
    · exact ih hdir hr'

theorem get_dropLast {q : List Name} (h : t.get q = some .dir) : t.get q.dropLast = some .dir := by
  induction q using List.reverseRecOn with
  | nil => exact h
  | append_singleton q n _ =>
    rw [List.dropLast_concat]
    exact t.above _ _ _ h

theorem get_start (p : Path Name) {q : List Name} (h : t.get q = some .dir) : t.get (p.start q) = some .dir := by
  unfold Path.start
  split
  · exact t.root
  · exact h

end Tree

/-! ## Resolution -/

inductive Errno where
  | noEntry
  | notDirectory
  | loop
  | isDirectory
  | noDevice
deriving DecidableEq, Repr

section Walk

variable (t : Tree Name Content Special) (follow : Bool)

/-- Along the pieces up to the next link, where `jump` takes over. -/
def stroll (jump : List Name → List (Piece Name) → Except Errno (List Name)) :
    List Name → List (Piece Name) → Except Errno (List Name)
  | here, [] => .ok here
  | here, p :: ps =>
    if t.isDir here then
      match p with
      | .empty => stroll jump here ps
      | .dot => stroll jump here ps
      | .dotdot => stroll jump here.dropLast ps
      | .name n =>
        match t.get (here ++ [n]) with
        | none => .error .noEntry
        | some (.symlink target) =>
          if ps.isEmpty && !follow then .ok (here ++ [n])
          else jump (target.start here) (target.pieces ++ ps)
        | some _ => stroll jump (here ++ [n]) ps
    else .error .notDirectory

/-- The walk from a directory along the pieces, through at most `links` links. -/
def walk : Nat → List Name → List (Piece Name) → Except Errno (List Name)
  | 0 => stroll t follow fun _ _ => .error .loop
  | links + 1 => stroll t follow (walk links)

/-- A path from the working directory.  The empty path resolves to nothing. -/
def resolve (links : Nat) (cwd : List Name) (path : Path Name) : Except Errno (List Name) :=
  if path.absolute = false ∧ path.pieces = [] then .error .noEntry
  else walk t follow links (path.start cwd) path.pieces

end Walk

/-! ## Successful walks -/

/-- `Resolves t follow links here ps q`: from `here` the pieces lead to `q`. -/
inductive Resolves (t : Tree Name Content Special) (follow : Bool) :
    Nat → List Name → List (Piece Name) → List Name → Prop
  | nil {links here} : Resolves t follow links here [] here
  | idle {links here p ps q} : t.get here = some .dir → p.idle = true → Resolves t follow links here ps q →
      Resolves t follow links here (p :: ps) q
  | up {links here ps q} : t.get here = some .dir → Resolves t follow links here.dropLast ps q →
      Resolves t follow links here (.dotdot :: ps) q
  | down {links here n ps o q} : t.get here = some .dir → t.get (here ++ [n]) = some o → o.isSymlink = false →
      Resolves t follow links (here ++ [n]) ps q → Resolves t follow links here (.name n :: ps) q
  | jump {links here n ps target q} : t.get here = some .dir → t.get (here ++ [n]) = some (.symlink target) →
      (ps ≠ [] ∨ follow = true) → Resolves t follow links (target.start here) (target.pieces ++ ps) q →
      Resolves t follow (links + 1) here (.name n :: ps) q
  | stay {links here n target} : t.get here = some .dir → t.get (here ++ [n]) = some (.symlink target) →
      follow = false → Resolves t follow links here [.name n] (here ++ [n])

section Walks

variable {t : Tree Name Content Special} {follow : Bool} {links : Nat} {here q : List Name} {ps : List (Piece Name)}

/-! The walk, piece by piece. -/

@[simp] theorem walk_nil : walk t follow links here [] = .ok here := by
  cases links <;> rfl

theorem walk_notDir {p : Piece Name} (h : t.isDir here = false) :
    walk t follow links here (p :: ps) = .error .notDirectory := by
  cases links <;> simp [walk, stroll, h]

theorem walk_idle {p : Piece Name} (h : t.get here = some .dir) (hp : p.idle = true) :
    walk t follow links here (p :: ps) = walk t follow links here ps := by
  have hdir := Tree.isDir_iff.mpr h
  cases p with
  | empty => cases links <;> simp [walk, stroll, hdir]
  | dot => cases links <;> simp [walk, stroll, hdir]
  | dotdot => cases hp
  | name n => cases hp

theorem walk_up (h : t.get here = some .dir) :
    walk t follow links here (.dotdot :: ps) = walk t follow links here.dropLast ps := by
  have hdir := Tree.isDir_iff.mpr h
  cases links <;> simp [walk, stroll, hdir]

variable {n : Name}

theorem walk_absent (h : t.get here = some .dir) (hn : t.get (here ++ [n]) = none) :
    walk t follow links here (.name n :: ps) = .error .noEntry := by
  have hdir := Tree.isDir_iff.mpr h
  cases links <;> simp [walk, stroll, hdir, hn]

theorem walk_down {o : Object Name Content Special} (h : t.get here = some .dir)
    (hn : t.get (here ++ [n]) = some o) (ho : o.isSymlink = false) :
    walk t follow links here (.name n :: ps) = walk t follow links (here ++ [n]) ps := by
  have hdir := Tree.isDir_iff.mpr h
  cases o with
  | symlink target => cases ho
  | _ => cases links <;> simp [walk, stroll, hdir, hn]

variable {target : Path Name}

theorem walk_stay (h : t.get here = some .dir) (hn : t.get (here ++ [n]) = some (.symlink target)) :
    walk t false links here [.name n] = .ok (here ++ [n]) := by
  have hdir := Tree.isDir_iff.mpr h
  cases links <;> simp [walk, stroll, hdir, hn]

theorem walk_jump (h : t.get here = some .dir) (hn : t.get (here ++ [n]) = some (.symlink target))
    (hgo : ps ≠ [] ∨ follow = true) :
    walk t follow (links + 1) here (.name n :: ps) =
      walk t follow links (target.start here) (target.pieces ++ ps) := by
  have hdir := Tree.isDir_iff.mpr h
  rcases hgo with hgo | hgo <;> simp [walk, stroll, hdir, hn, hgo]

theorem walk_loop (h : t.get here = some .dir) (hn : t.get (here ++ [n]) = some (.symlink target))
    (hgo : ps ≠ [] ∨ follow = true) : walk t follow 0 here (.name n :: ps) = .error .loop := by
  have hdir := Tree.isDir_iff.mpr h
  rcases hgo with hgo | hgo <;> simp [walk, stroll, hdir, hn, hgo]

/-- The function finds what the relation says. -/
theorem walk_of_resolves (h : Resolves t follow links here ps q) : walk t follow links here ps = .ok q := by
  induction h with
  | nil => exact walk_nil
  | idle hdir hp _ ih => rw [walk_idle hdir hp, ih]
  | up hdir _ ih => rw [walk_up hdir, ih]
  | down hdir hn ho _ ih => rw [walk_down hdir hn ho, ih]
  | jump hdir hn hgo _ ih => rw [walk_jump hdir hn hgo, ih]
  | stay hdir hn hfollow =>
    cases hfollow
    exact walk_stay hdir hn

/-- The pieces up to a link, with what is known of the walk behind the link. -/
theorem resolves_of_stroll
    (hjump : ∀ k, links = k + 1 → ∀ {here ps}, walk t follow k here ps = .ok q → Resolves t follow k here ps q)
    (h : walk t follow links here ps = .ok q) : Resolves t follow links here ps q := by
  induction ps generalizing here with
  | nil =>
    rw [walk_nil] at h
    cases h
    exact .nil
  | cons p ps ih =>
    cases hdir : t.isDir here with
    | false =>
      rw [walk_notDir hdir] at h
      cases h
    | true =>
      have hget := Tree.isDir_iff.mp hdir
      cases p with
      | empty => exact .idle hget rfl (ih ((walk_idle hget rfl).symm.trans h))
      | dot => exact .idle hget rfl (ih ((walk_idle hget rfl).symm.trans h))
      | dotdot => exact .up hget (ih (walk_up hget ▸ h))
      | name n =>
        cases hn : t.get (here ++ [n]) with
        | none =>
          rw [walk_absent hget hn] at h
          cases h
        | some o =>
          cases ho : o.isSymlink with
          | false => exact .down hget hn ho (ih (walk_down hget hn ho ▸ h))
          | true =>
            obtain ⟨target, rfl⟩ := Object.eq_symlink ho
            by_cases hgo : ps ≠ [] ∨ follow = true
            · cases links with
              | zero =>
                rw [walk_loop hget hn hgo] at h
                cases h
              | succ links => exact .jump hget hn hgo (hjump links rfl (walk_jump hget hn hgo ▸ h))
            · obtain ⟨rfl, rfl⟩ : ps = [] ∧ follow = false := by simpa using hgo
              rw [walk_stay hget hn] at h
              cases h
              exact .stay hget hn rfl

theorem resolves_of_walk (h : walk t follow links here ps = .ok q) : Resolves t follow links here ps q := by
  induction links generalizing here ps with
  | zero => exact resolves_of_stroll (fun k hk => nomatch hk) h
  | succ links ih =>
    refine resolves_of_stroll (fun k hk => ?_) h
    cases hk
    exact ih

/-! ## What a walk ends at -/

theorem exists_of_resolves (h : Resolves t follow links here ps q) (hhere : (t.get here).isSome = true) :
    (t.get q).isSome = true := by
  induction h with
  | nil => exact hhere
  | idle _ _ _ ih => exact ih hhere
  | up hdir _ ih => exact ih (by rw [Tree.get_dropLast hdir]; rfl)
  | down _ hn _ _ ih => exact ih (by rw [hn]; rfl)
  | @jump _ here _ _ target _ hdir _ _ _ ih =>
    apply ih
    rw [Tree.get_start target hdir]
    rfl
  | stay _ hn _ =>
    rw [hn]
    rfl

/-- A walk that follows ends at no link, unless it starts at one and goes nowhere. -/
theorem not_symlink_of_resolves (h : Resolves t true links here ps q)
    (hhere : ∀ o, t.get here = some o → o.isSymlink = false) : ∀ o, t.get q = some o → o.isSymlink = false := by
  induction h with
  | nil => exact hhere
  | idle _ _ _ ih => exact ih hhere
  | up hdir _ ih =>
    apply ih
    intro o ho
    rw [Tree.get_dropLast hdir] at ho
    cases ho
    rfl
  | down _ hn ho _ ih =>
    apply ih
    intro o' ho'
    rw [hn] at ho'
    cases ho'
    exact ho
  | @jump _ here _ _ target _ hdir _ _ _ ih =>
    apply ih
    intro o ho
    rw [Tree.get_start target hdir] at ho
    cases ho
    rfl
  | stay _ _ hfollow => cases hfollow

variable {path : Path Name}

/-- A path that resolves starts in a directory. -/
theorem resolves_of_resolve {cwd : List Name} (h : resolve t follow links cwd path = .ok q) :
    t.get (path.start cwd) = some .dir ∧ Resolves t follow links (path.start cwd) path.pieces q := by
  unfold resolve at h
  split at h
  · cases h
  · next hne =>
    have hwalk := resolves_of_walk h
    refine ⟨?_, hwalk⟩
    cases habs : path.absolute with
    | true =>
      rw [show path.start cwd = [] from if_pos habs]
      exact t.root
    | false =>
      cases hps : path.pieces with
      | nil => exact absurd ⟨habs, hps⟩ hne
      | cons p ps =>
        rw [hps] at hwalk
        cases hwalk <;> assumption

theorem get_of_resolve {cwd : List Name} (h : resolve t follow links cwd path = .ok q) :
    ∃ o, t.get q = some o := by
  obtain ⟨hstart, hres⟩ := resolves_of_resolve h
  exact Option.isSome_iff_exists.mp (exists_of_resolves hres (by rw [hstart]; rfl))

theorem not_symlink_of_resolve {cwd : List Name} (h : resolve t true links cwd path = .ok q) :
    ∀ o, t.get q = some o → o.isSymlink = false := by
  obtain ⟨hstart, hres⟩ := resolves_of_resolve h
  refine not_symlink_of_resolves hres fun o ho => ?_
  cases hstart.symm.trans ho
  rfl

/-! ## Cutting a walk in two -/

/-- If the first pieces lead to `d`, the rest goes on from there, with the links that are
left.  The rest may not be empty where a final link would be left alone. -/
theorem walk_append (h : Resolves t true links here ps q) :
    ∃ k, ∀ {follow} {qs : List (Piece Name)}, (qs ≠ [] ∨ follow = true) →
      walk t follow links here (ps ++ qs) = walk t follow k q qs := by
  induction h with
  | @nil links _ => exact ⟨links, fun _ => rfl⟩
  | idle hdir hp _ ih =>
    obtain ⟨k, hk⟩ := ih
    refine ⟨k, fun hqs => ?_⟩
    rw [List.cons_append, walk_idle hdir hp, hk hqs]
  | up hdir _ ih =>
    obtain ⟨k, hk⟩ := ih
    refine ⟨k, fun hqs => ?_⟩
    rw [List.cons_append, walk_up hdir, hk hqs]
  | down hdir hn ho _ ih =>
    obtain ⟨k, hk⟩ := ih
    refine ⟨k, fun hqs => ?_⟩
    rw [List.cons_append, walk_down hdir hn ho, hk hqs]
  | @jump _ _ _ ps _ _ hdir hn _ _ ih =>
    obtain ⟨k, hk⟩ := ih
    refine ⟨k, fun {follow qs} hqs => ?_⟩
    have hgo : ps ++ qs ≠ [] ∨ follow = true := hqs.imp_left fun hqs hnil => hqs (List.append_eq_nil_iff.mp hnil).2
    rw [List.cons_append, walk_jump hdir hn hgo, ← List.append_assoc, hk hqs]
  | stay _ _ hfollow => cases hfollow

theorem walk_idles {idles qs : List (Piece Name)} (h : t.get here = some .dir) (hidles : ∀ x ∈ idles, x.idle = true) :
    walk t follow links here (idles ++ qs) = walk t follow links here qs := by
  induction idles with
  | nil => rfl
  | cons x idles ih =>
    rw [List.cons_append, walk_idle h (hidles x List.mem_cons_self)]
    exact ih fun y hy => hidles y (List.mem_cons_of_mem x hy)

theorem walk_names {names : List Name} {qs : List (Piece Name)} (h : t.get (here ++ names) = some .dir) :
    walk t follow links here (names.map .name ++ qs) = walk t follow links (here ++ names) qs := by
  induction names generalizing here with
  | nil => rw [List.map_nil, List.nil_append, List.append_nil]
  | cons n names ih =>
    have hcut : here ++ n :: names = here ++ [n] ++ names := by rw [List.append_assoc]; rfl
    have hhere : t.get here = some .dir := Tree.get_above h (List.cons_ne_nil _ _)
    rw [hcut] at h ⊢
    have hn : t.get (here ++ [n]) = some .dir := by
      by_cases hnil : names = []
      · rw [hnil, List.append_nil] at h
        exact h
      · exact Tree.get_above h hnil
    rw [List.map_cons, List.cons_append, walk_down hhere hn rfl]
    exact ih h

theorem resolve_ofNames {cwd : List Name} {o : Object Name Content Special} (h : t.get q = some o)
    (ho : o.isSymlink = false) : resolve t follow links cwd (.ofNames q) = .ok q := by
  have hwalk : walk t follow links [] (q.map .name) = .ok q := by
    cases q using List.reverseRecOn with
    | nil => exact walk_nil
    | append_singleton d n =>
      rw [List.map_append, walk_names (by exact t.above _ _ _ h), List.map_singleton, List.nil_append,
        walk_down (t.above _ _ _ h) h ho, walk_nil]
  exact hwalk

/-! ## Trees that agree -/

/-- Whatever is found in `t` is found in `t'`, though a file may have other content. -/
def Tree.Extends (t' t : Tree Name Content Special) : Prop :=
  ∀ q o, t.get q = some o → t'.get q = some o ∨ (o.isFile = true ∧ ∃ o', t'.get q = some o' ∧ o'.isFile = true)

variable {t' : Tree Name Content Special}

theorem Tree.Extends.dir (hext : t'.Extends t) (h : t.get q = some .dir) :
    t'.get q = some .dir :=
  (hext q _ h).resolve_right fun hfile => nomatch hfile.1

theorem Resolves.extends (hext : t'.Extends t) (h : Resolves t follow links here ps q) :
    Resolves t' follow links here ps q := by
  have hsym : ∀ {q target}, t.get q = some (.symlink target) → t'.get q = some (.symlink target) :=
    fun h => (hext _ _ h).resolve_right fun hfile => nomatch hfile.1
  induction h with
  | nil => exact .nil
  | idle hdir hp _ ih => exact .idle (hext.dir hdir) hp ih
  | up hdir _ ih => exact .up (hext.dir hdir) ih
  | down hdir hn ho _ ih =>
    rcases hext _ _ hn with hn' | ⟨-, o', hn', hfile⟩
    · exact .down (hext.dir hdir) hn' ho ih
    · refine .down (hext.dir hdir) hn' ?_ ih
      cases o' with
      | symlink target => cases hfile
      | _ => rfl
  | jump hdir hn hgo _ ih => exact .jump (hext.dir hdir) (hsym hn) hgo ih
  | stay hdir hn hfollow => exact .stay (hext.dir hdir) (hsym hn) hfollow

theorem resolve_extends {cwd : List Name} (hext : t'.Extends t) (h : resolve t follow links cwd path = .ok q) :
    resolve t' follow links cwd path = .ok q := by
  have hwalk := walk_of_resolves ((resolves_of_resolve h).2.extends hext)
  unfold resolve at h ⊢
  split at h
  · cases h
  · next hne => rw [if_neg hne, hwalk]

/-! ## The same links -/

/-- The links of the two trees are the same; what else stands in them may differ. -/
def Tree.SameLinks (t t' : Tree Name Content Special) : Prop :=
  ∀ q target, t.get q = some (.symlink target) ↔ t'.get q = some (.symlink target)

/-- Where two walks along the same pieces both succeed, they lead to the same place. -/
theorem Resolves.unique (hlinks : t.SameLinks t') (h : Resolves t follow links here ps q) {q' : List Name}
    (h' : Resolves t' follow links here ps q') : q' = q := by
  have hno : ∀ {q target o}, t.get q = some o → o.isSymlink = false → t'.get q ≠ some (.symlink target) := by
    intro q target o ho hlink htarget
    cases ho.symm.trans ((hlinks q target).mpr htarget)
    cases hlink
  induction h generalizing q' with
  | nil =>
    cases h'
    rfl
  | idle _ hp _ ih =>
    cases h' with
    | idle _ _ h' => exact ih h'
    | up | down | jump | stay => cases hp
  | up _ _ ih =>
    cases h' with
    | up _ h' => exact ih h'
    | idle _ hp => cases hp
  | down _ hn ho _ ih =>
    cases h' with
    | down _ _ _ h' => exact ih h'
    | idle _ hp => cases hp
    | jump _ hn' | stay _ hn' => exact absurd hn' (hno hn ho)
  | jump _ hn hgo _ ih =>
    have hn₁ := (hlinks _ _).mp hn
    cases h' with
    | jump _ hn' _ h' =>
      cases hn₁.symm.trans hn'
      exact ih h'
    | idle _ hp => cases hp
    | down _ hn' ho' =>
      cases hn₁.symm.trans hn'
      cases ho'
    | stay _ _ hfollow =>
      rcases hgo with hps | htrue
      · exact absurd rfl hps
      · cases hfollow.symm.trans htrue
  | stay _ hn hfollow =>
    have hn₁ := (hlinks _ _).mp hn
    cases h' with
    | stay => rfl
    | idle _ hp => cases hp
    | down _ hn' ho' =>
      cases hn₁.symm.trans hn'
      cases ho'
    | jump _ _ hgo' =>
      rcases hgo' with hps | htrue
      · exact absurd rfl hps
      · cases hfollow.symm.trans htrue

theorem Resolves.unfollowed (h : Resolves t true links here ps q) : ∃ q', Resolves t false links here ps q' := by
  induction h with
  | nil => exact ⟨_, .nil⟩
  | idle hdir hp _ ih =>
    obtain ⟨q', h'⟩ := ih
    exact ⟨q', .idle hdir hp h'⟩
  | up hdir _ ih =>
    obtain ⟨q', h'⟩ := ih
    exact ⟨q', .up hdir h'⟩
  | down hdir hn ho _ ih =>
    obtain ⟨q', h'⟩ := ih
    exact ⟨q', .down hdir hn ho h'⟩
  | @jump _ _ _ ps _ _ hdir hn _ _ ih =>
    by_cases hps : ps = []
    · subst hps
      exact ⟨_, .stay hdir hn rfl⟩
    · obtain ⟨q', h'⟩ := ih
      exact ⟨q', .jump hdir hn (.inl hps) h'⟩
  | stay _ _ hfollow => cases hfollow

theorem resolve_unfollowed {cwd : List Name} (h : resolve t true links cwd path = .ok q) :
    ∃ q', resolve t false links cwd path = .ok q' := by
  obtain ⟨q', h'⟩ := (resolves_of_resolve h).2.unfollowed
  refine ⟨q', ?_⟩
  unfold resolve at h ⊢
  split at h
  · cases h
  · next hne => rw [if_neg hne, walk_of_resolves h']

end Walks

/-! ## Writing -/

/-- A file can be written at `q`: it stands in a directory, and what is there, if anything,
is a file. -/
def Tree.Takes (t : Tree Name Content Special) (q : List Name) : Prop :=
  ∃ dir n, q = dir ++ [n] ∧ t.get dir = some .dir ∧ ∀ o, t.get q = some o → o.isFile = true

section Write

variable [DecidableEq Name] {t : Tree Name Content Special} {links : Nat} {cwd q : List Name}

def Tree.write (t : Tree Name Content Special) (q : List Name) (content : Content) (h : t.Takes q) :
    Tree Name Content Special where
  get r := if r = q then some (.file content) else t.get r
  root := by
    obtain ⟨dir, n, rfl, -, -⟩ := h
    rw [if_neg (by simp), t.root]
  above := by
    obtain ⟨dir, n, rfl, hdir, hfile⟩ := h
    intro r m o hr
    have habove : t.get r = some .dir := by
      by_cases heq : r ++ [m] = dir ++ [n]
      · rw [List.append_inj_left' heq rfl]
        exact hdir
      · rw [if_neg heq] at hr
        exact t.above _ _ _ hr
    rw [if_neg ?_, habove]
    rintro rfl
    cases hfile _ habove

@[simp] theorem Tree.get_write_self (content : Content) (h : t.Takes q) :
    (t.write q content h).get q = some (.file content) :=
  if_pos rfl

theorem Tree.get_write_of_ne (content : Content) (h : t.Takes q) {r : List Name} (hr : r ≠ q) :
    (t.write q content h).get r = t.get r :=
  if_neg hr

theorem Tree.write_extends (content : Content) (h : t.Takes q) : (t.write q content h).Extends t := by
  intro r o ho
  by_cases hr : r = q
  · subst hr
    have hfile : o.isFile = true := by
      obtain ⟨-, -, -, -, hfile⟩ := h
      exact hfile o ho
    exact .inr ⟨hfile, _, Tree.get_write_self content h, rfl⟩
  · exact .inl ((Tree.get_write_of_ne content h hr).trans ho)

/-- A walk through the written tree ends at the file that was written, or was there before. -/
theorem Resolves.of_write {content : Content} {h : t.Takes q} {here r : List Name} {ps : List (Piece Name)}
    (hres : Resolves (t.write q content h) true links here ps r) : r = q ∨ Resolves t true links here ps r := by
  have hold : ∀ {s o}, (t.write q content h).get s = some o → o.isFile = false → t.get s = some o := by
    intro s o hs ho
    by_cases heq : s = q
    · subst heq
      cases (Tree.get_write_self content h).symm.trans hs
      cases ho
    · exact (Tree.get_write_of_ne content h heq).symm.trans hs
  induction hres with
  | nil => exact .inr .nil
  | idle hdir hp _ ih => exact ih.imp_right (.idle (hold hdir rfl) hp)
  | up hdir _ ih => exact ih.imp_right (.up (hold hdir rfl))
  | @down _ here n _ _ _ hdir hn ho hrest ih =>
    by_cases heq : here ++ [n] = q
    · -- nothing lies below a file, so the walk ends here
      rw [heq] at hrest
      cases hrest with
      | nil => exact .inl rfl
      | idle hfile | up hfile | down hfile | jump hfile => cases (Tree.get_write_self content h).symm.trans hfile
      | stay _ _ hfollow => cases hfollow
    · exact ih.imp_right (.down (hold hdir rfl) ((Tree.get_write_of_ne content h heq).symm.trans hn) ho)
  | jump hdir hn hgo _ ih => exact ih.imp_right (.jump (hold hdir rfl) (hold hn rfl) hgo)
  | stay _ _ hfollow => cases hfollow

theorem resolve_of_write {content : Content} (h : t.Takes q) {path : Path Name} {r : List Name}
    (hres : resolve (t.write q content h) true links cwd path = .ok r) :
    r = q ∨ resolve t true links cwd path = .ok r := by
  refine (resolves_of_resolve hres).2.of_write.imp_right fun hwalk => ?_
  unfold resolve at hres ⊢
  split at hres
  · cases hres
  · next hne => rw [if_neg hne, walk_of_resolves hwalk]

omit [DecidableEq Name]

/-- The name `n` in `dir`, opened for writing: what is absent is created, and a link is not
followed. -/
def entryAt (t : Tree Name Content Special) (dir : List Name) (n : Name) : Except Errno (List Name) :=
  if t.isDir dir then
    match t.get (dir ++ [n]) with
    | none => .ok (dir ++ [n])
    | some (.file _) => .ok (dir ++ [n])
    | some .dir => .error .isDirectory
    | some (.symlink _) => .error .loop
    | some (.special _) => .error .noDevice
  else .error .notDirectory

/-- A path opened for writing.  One that ends in a slash, a dot or two names no file. -/
def openEntry (t : Tree Name Content Special) (links : Nat) (cwd : List Name) (path : Path Name) :
    Except Errno (List Name) :=
  match path.pieces.getLast? with
  | some (.name n) =>
    (walk t true links (path.start cwd) path.pieces.dropLast).bind fun dir => entryAt t dir n
  | _ => .error (if path.absolute = false ∧ path.pieces.isEmpty then .noEntry else .isDirectory)

theorem entryAt_takes {dir : List Name} {n : Name} (h : entryAt t dir n = .ok q) : t.Takes q := by
  unfold entryAt at h
  split at h
  · next hdir =>
    refine ⟨dir, n, ?_⟩
    split at h
    · next hnone =>
      cases h
      exact ⟨rfl, Tree.isDir_iff.mp hdir, fun o ho => nomatch hnone.symm.trans ho⟩
    · next c hfile =>
      cases h
      refine ⟨rfl, Tree.isDir_iff.mp hdir, fun o ho => ?_⟩
      cases hfile.symm.trans ho
      rfl
    · cases h
    · cases h
    · cases h
  · cases h

theorem openEntry_takes {path : Path Name} (h : openEntry t links cwd path = .ok q) : t.Takes q := by
  unfold openEntry at h
  split at h
  · cases hwalk : walk t true links (path.start cwd) path.pieces.dropLast with
    | error e =>
      rw [hwalk] at h
      cases h
    | ok dir =>
      rw [hwalk] at h
      exact entryAt_takes h
  · cases h

theorem openEntry_ofNames (h : t.Takes q) : openEntry t links cwd (.ofNames q) = .ok q := by
  obtain ⟨dir, n, rfl, hdir, hfile⟩ := h
  have hwalk : walk t true links [] (dir.map .name ++ []) = walk t true links ([] ++ dir) [] := walk_names hdir
  have hentry : entryAt t dir n = .ok (dir ++ [n]) := by
    unfold entryAt
    rw [if_pos (Tree.isDir_iff.mpr hdir)]
    cases ho : t.get (dir ++ [n]) with
    | none => rfl
    | some o =>
      cases o with
      | file c => rfl
      | _ => cases hfile _ ho
  rw [List.append_nil, walk_nil, List.nil_append] at hwalk
  simp only [openEntry, Path.ofNames, Path.start, List.map_append, List.map_cons, List.map_nil, List.getLast?_concat,
    List.dropLast_concat, if_true, hwalk]
  exact hentry

end Write

end Lib.FileTree
