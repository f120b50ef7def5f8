/-
# `FactorQ.Sandbox.Containment` — what an accepted path can reach

With the tree unchanged between the check and the open, a path that the sandbox accepts
stays inside a grant: reading opens the regular file that the path resolves to, and writing
changes one file, below a granted directory.

One thing is not as documented.  A path ending in a slash asserts a directory, and one that
ends so and names a file is refused; but if nothing is there yet, the slash is dropped and
a file is created, which the path that was asked for does not name.
-/
import FactorQ.Sandbox.Check

namespace FactorQ.Sandbox

open Lib.FileTree ToolSandbox

/-! ## What the single checks say -/

section Checks

variable {host : Host} {target original : FilePath} {canonical P : List FileName}

theorem ok_of_mapError {α : Type} {x : Except SandboxError α} {a : α} {f : SandboxError → SandboxError}
    (h : x.mapError f = .ok a) : x = .ok a := by
  cases x with
  | error err => cases h
  | ok b => exact h

theorem ok_of_bind {α β : Type} {x : Except SandboxError α} {f : α → Except SandboxError β} {b : β}
    (h : x >>= f = .ok b) : ∃ a, x = .ok a ∧ f a = .ok b := by
  cases x with
  | error err => cases h
  | ok a => exact ⟨a, rfl, h⟩

/-- `P` lies at or below what one of the granted paths resolves to. -/
def Granted (host : Host) (prefixes : List FilePath) (P : List FileName) : Prop :=
  ∃ granted ∈ prefixes, ∃ root, host.canonicalize granted = .ok root ∧ root <+: P

theorem granted_of_checkWithin {prefixes : List FilePath} {dimension : String}
    (h : checkWithin host canonical prefixes dimension original = .ok P) : P = canonical ∧ Granted host prefixes P := by
  unfold checkWithin at h
  split at h
  · next hany =>
    cases h
    refine ⟨rfl, ?_⟩
    obtain ⟨granted, hmem, hwithin⟩ := List.any_eq_true.mp hany
    unfold within at hwithin
    split at hwithin
    · next root hroot => exact ⟨granted, hmem, root, hroot, List.isPrefixOf_iff_prefix.mp hwithin⟩
    · cases hwithin
  · cases h

variable {o : FileObject}

theorem metadata_ofNames (h : host.tree.get canonical = some o) (ho : o.isSymlink = false) :
    host.metadata (.ofNames canonical) = .ok o := by
  unfold Host.metadata Host.stat
  rw [resolve_ofNames h ho]
  show (host.tree.get canonical).elim _ _ = _
  rw [h]
  rfl

theorem file_of_check (hget : host.tree.get canonical = some o) (ho : o.isSymlink = false)
    (h : FileShape.regular.check host canonical original = .ok ()) : o.isFile = true := by
  unfold FileShape.check at h
  rw [metadata_ofNames hget ho] at h
  dsimp only at h
  split at h
  · next hfile => exact hfile
  · cases h

/-- Above an object, and at it if it is no link, there are no links. -/
theorem no_symlink_above (hget : host.tree.get P = some o) (ho : o.isSymlink = false) {q : List FileName}
    (hq : q <+: P) : ∀ o', host.tree.get q = some o' → o'.isSymlink = false := by
  obtain ⟨r, rfl⟩ := hq
  intro o' ho'
  by_cases hr : r = []
  · rw [hr, List.append_nil] at hget
    cases hget.symm.trans ho'
    exact ho
  · cases (Tree.get_above hget hr).symm.trans ho'
    rfl

end Checks

/-! ## Reading -/

/-- What `check_read` promises of the path it returns. -/
structure ReadsInside (sandbox : ToolSandbox) (host : Host) (target : FilePath) (P : List FileName) : Prop where
  noSymlink : ∀ q, q <+: P → ∀ o, host.tree.get q = some o → o.isSymlink = false
  granted : Granted host sandbox.fsRead P
  resolves : host.canonicalize target = .ok P
  regular : ∃ content, host.tree.get P = some (.file content)

theorem readsInside_of_checkRead {sandbox : ToolSandbox} {host : Host} {target : FilePath} {P : List FileName}
    (h : sandbox.checkRead host target = .ok P) : ReadsInside sandbox host target P := by
  have himpl := ok_of_mapError h
  unfold checkReadImpl at himpl
  split at himpl
  · cases himpl
  · split at himpl
    · cases himpl
    · cases himpl
    · next canonical hcanonical =>
      obtain ⟨canonical', hwithin, hrest⟩ := ok_of_bind himpl
      obtain ⟨⟨⟩, hshape, hret⟩ := ok_of_bind hrest
      obtain ⟨rfl, hgranted⟩ := granted_of_checkWithin hwithin
      cases hret
      obtain ⟨o, ho⟩ := get_of_resolve hcanonical
      have hlink := not_symlink_of_resolve hcanonical o ho
      have hfile := file_of_check ho hlink hshape
      refine ⟨fun q hq => no_symlink_above ho hlink hq, hgranted, hcanonical, ?_⟩
      cases o with
      | file content => exact ⟨content, ho⟩
      | _ => cases hfile

/-! ## Writing -/

section Write

variable {sandbox : ToolSandbox} {host : Host} {target : FilePath} {P : List FileName}

/-- The same host with other files. -/
def Host.after (host : Host) (tree : Tree FileName String Special) : Host := { host with tree }

/-- How an accepted path was found: it resolves, or it is a new name in a directory. -/
inductive Found (host : Host) (target : FilePath) (P : List FileName) : Prop
  | existing {content : String} : host.canonicalize target = .ok P → host.tree.get P = some (.file content) →
      Found host target P
  | new {dir : List FileName} {n : FileName} {before after : List (Piece FileName)} {parent : FilePath} :
      P = dir ++ [n] → host.tree.get dir = some .dir → host.tree.get P = none →
      parent.absolute = target.absolute →
      target.pieces = parent.pieces ++ before ++ .name n :: after →
      (∀ x ∈ before, x.idle = true) → (∀ x ∈ after, x.idle = true) →
      Resolves host.tree true host.links (target.start host.cwd) parent.pieces dir → Found host target P

variable {dir : List FileName} {parent : FilePath}

/-- A path without pieces stands for the working directory when it is the parent. -/
theorem resolves_parent
    (h : host.canonicalize (if parent.absolute = false ∧ parent.pieces.isEmpty then ⟨false, [.dot]⟩ else parent) = .ok dir) :
    Resolves host.tree true host.links (parent.start host.cwd) parent.pieces dir := by
  split at h
  · next hempty =>
    obtain ⟨habs, hnil⟩ := hempty
    obtain ⟨hdir, hres⟩ := resolves_of_resolve h
    rw [List.isEmpty_iff.mp hnil, show parent.start host.cwd = host.cwd from if_neg (by simp [habs])]
    have hwalk := walk_of_resolves hres
    rw [walk_idle hdir rfl, walk_nil] at hwalk
    cases hwalk
    exact .nil
  · exact (resolves_of_resolve h).2

variable {n : FileName}

/-- A name that is there, with slashes and dots behind it, is never reported absent. -/
theorem walk_ne_noEntry {tree : Tree FileName String Special} {links : Nat} {after : List (Piece FileName)}
    {o : FileObject} (hdir : tree.get dir = some .dir) (ho : tree.get (dir ++ [n]) = some o)
    (hlink : o.isSymlink = false) (hafter : ∀ x ∈ after, x.idle = true) :
    walk tree false links dir (.name n :: after) = .ok (dir ++ [n]) ∨
      walk tree false links dir (.name n :: after) = .error .notDirectory := by
  rw [walk_down hdir ho hlink]
  cases hisDir : tree.isDir (dir ++ [n]) with
  | true =>
    have hwalk : walk tree false links (dir ++ [n]) (after ++ []) = walk tree false links (dir ++ [n]) [] :=
      walk_idles (Tree.isDir_iff.mp hisDir) hafter
    rw [List.append_nil, walk_nil] at hwalk
    exact .inl hwalk
  | false =>
    cases after with
    | nil => exact .inl walk_nil
    | cons x after => exact .inr (walk_notDir hisDir)

/-- The probe for a link, at the names of the link itself. -/
theorem symlinkMetadata_link {link : FilePath} (hdir : host.tree.get dir = some .dir)
    (h : host.tree.get (dir ++ [n]) = some (.symlink link)) :
    host.symlinkMetadata (.ofNames (dir ++ [n])) = .ok (.symlink link) := by
  have hresolve : resolve host.tree false host.links host.cwd (.ofNames (dir ++ [n])) = .ok (dir ++ [n]) := by
    show walk host.tree false host.links [] ((dir ++ [n]).map .name) = _
    rw [List.map_append, walk_names (by exact hdir), List.map_singleton, List.nil_append, walk_stay hdir h]
  unfold Host.symlinkMetadata Host.stat
  rw [hresolve]
  show (host.tree.get (dir ++ [n])).elim _ _ = _
  rw [h]
  rfl

variable {before after : List (Piece FileName)}

/-- The walk along the whole target, from the directory that the parent resolves to. -/
theorem resolve_target (host : Host) (follow : Bool)
    (hpieces : target.pieces = parent.pieces ++ before ++ .name n :: after)
    (hbefore : ∀ x ∈ before, x.idle = true)
    (hres : Resolves host.tree true host.links (target.start host.cwd) parent.pieces dir) :
    (host.tree.isDir dir = false → resolve host.tree follow host.links host.cwd target = .error .notDirectory) ∧
      (host.tree.get dir = some .dir → ∃ k, resolve host.tree follow host.links host.cwd target =
        walk host.tree follow k dir (.name n :: after)) := by
  have hne : before ++ .name n :: after ≠ [] := by simp
  obtain ⟨k, hk⟩ := walk_append hres
  have htarget : resolve host.tree follow host.links host.cwd target =
      walk host.tree follow k dir (before ++ .name n :: after) := by
    unfold resolve
    rw [if_neg (by simp [hpieces]), hpieces, List.append_assoc, hk (.inl hne)]
  constructor
  · intro hdir
    rw [htarget]
    obtain ⟨x, xs, hcons⟩ := List.exists_cons_of_ne_nil hne
    rw [hcons, walk_notDir hdir]
  · intro hdir
    exact ⟨k, htarget.trans (walk_idles hdir hbefore)⟩

/-- If the target is reported absent and no link stands at the candidate, then the
candidate is absent, in a directory. -/
theorem absent_of_noEntry (hno : host.symlinkMetadata target = .error .noEntry)
    (hpieces : target.pieces = parent.pieces ++ before ++ .name n :: after)
    (hbefore : ∀ x ∈ before, x.idle = true) (hafter : ∀ x ∈ after, x.idle = true)
    (hres : Resolves host.tree true host.links (target.start host.cwd) parent.pieces dir)
    (hprobe : ∀ link, host.symlinkMetadata (.ofNames (dir ++ [n])) ≠ .ok (.symlink link)) :
    host.tree.get dir = some .dir ∧ host.tree.get (dir ++ [n]) = none := by
  obtain ⟨hnotDir, hwalk⟩ := resolve_target host false hpieces hbefore hres
  unfold Host.symlinkMetadata Host.stat at hno
  have hdir : host.tree.get dir = some .dir := by
    cases hisDir : host.tree.isDir dir with
    | true => exact Tree.isDir_iff.mp hisDir
    | false =>
      rw [hnotDir hisDir] at hno
      cases hno
  refine ⟨hdir, ?_⟩
  obtain ⟨k, hk⟩ := hwalk hdir
  rw [hk] at hno
  cases hget : host.tree.get (dir ++ [n]) with
  | none => rfl
  | some o =>
    exfalso
    cases hlink : o.isSymlink with
    | false =>
      rcases walk_ne_noEntry hdir hget hlink hafter with hok | hnot
      · rw [hok] at hno
        change (host.tree.get (dir ++ [n])).elim _ _ = _ at hno
        rw [hget] at hno
        cases hno
      · rw [hnot] at hno
        cases hno
    | true =>
      obtain ⟨link, rfl⟩ := Object.eq_symlink hlink
      exact hprobe link (symlinkMetadata_link hdir hget)

theorem found_of_parent (hno : host.symlinkMetadata target = .error .noEntry) {present : Bool}
    (h : canonicaliseParent host target = .ok (P, present)) : present = false ∧ Found host target P := by
  unfold canonicaliseParent at h
  split at h
  · cases h
  · next parent hparent =>
    split at h
    · cases h
    · next n hname =>
      dsimp only at h
      split at h
      · cases h
      · cases h
      · next dir hcanonical =>
        split at h
        · cases h
        · next hprobe =>
          cases h
          obtain ⟨habs, before, after, hbefore, hafter, hpieces⟩ := Path.parent_fileName_spec hparent hname
          have hstart : parent.start host.cwd = target.start host.cwd := by
            unfold Path.start
            rw [habs]
          have hres := hstart ▸ resolves_parent hcanonical
          obtain ⟨hdir, habsent⟩ := absent_of_noEntry hno hpieces hbefore hafter hres hprobe
          exact ⟨rfl, .new rfl hdir habsent habs hpieces hbefore hafter hres⟩

/-- What the resolution for writing returns: it exists, and then its shape is still to be
checked, or it is a new name. -/
theorem canonicaliseForWrite_ok {present : Bool} (h : canonicaliseForWrite host target = .ok (P, present)) :
    (present = true ∧ host.canonicalize target = .ok P) ∨ (present = false ∧ Found host target P) := by
  unfold canonicaliseForWrite at h
  split at h
  · split at h
    · next hcanonical =>
      cases h
      exact .inl ⟨rfl, hcanonical⟩
    · split at h <;> cases h
  · next hno => exact .inr (found_of_parent hno h)
  · split at h <;> cases h

theorem found_of_checkWrite (h : sandbox.checkWrite host target = .ok P) :
    Granted host sandbox.fsWrite P ∧ Found host target P := by
  have himpl := ok_of_mapError h
  unfold checkWriteImpl at himpl
  split at himpl
  · cases himpl
  · obtain ⟨⟨canonical, present⟩, hcanonical, hgrant⟩ := ok_of_bind himpl
    obtain ⟨P', hwithin, hrest⟩ := ok_of_bind hgrant
    obtain ⟨rfl, hgranted⟩ := granted_of_checkWithin hwithin
    rcases canonicaliseForWrite_ok hcanonical with ⟨rfl, hresolves⟩ | ⟨rfl, hfound⟩
    · change (FileShape.regular.check host P' target >>= fun _ => .ok P') = .ok P at hrest
      obtain ⟨⟨⟩, hshape, hret⟩ := ok_of_bind hrest
      cases hret
      obtain ⟨o, ho⟩ := get_of_resolve hresolves
      have hfile := file_of_check ho (not_symlink_of_resolve hresolves o ho) hshape
      refine ⟨hgranted, ?_⟩
      cases o with
      | file content => exact .existing hresolves ho
      | _ => cases hfile
    · change Except.ok P' = .ok P at hrest
      cases hrest
      exact ⟨hgranted, hfound⟩

theorem Found.takes (h : Found host target P) : host.tree.Takes P := by
  cases h with
  | existing _ hfile =>
    cases P using List.reverseRecOn with
    | nil => cases host.tree.root.symm.trans hfile
    | append_singleton dir n =>
      refine ⟨dir, n, rfl, host.tree.above _ _ _ hfile, fun o ho => ?_⟩
      cases hfile.symm.trans ho
      rfl
  | new hP hdir habsent =>
    subst hP
    exact ⟨_, _, rfl, hdir, fun o ho => nomatch habsent.symm.trans ho⟩

theorem writeNoFollow_of_takes (htakes : host.tree.Takes P) (content : String) :
    writeNoFollow host (.ofNames P) content = .ok (host.tree.write P content htakes) := by
  have hopen : openEntry host.tree host.links host.cwd (.ofNames P) = .ok P := openEntry_ofNames htakes
  unfold writeNoFollow
  split
  · next q hq =>
    cases hopen.symm.trans hq
    rfl
  all_goals next hq => cases hopen.symm.trans hq

theorem hasDirSuffix_eq {front after : List (Piece FileName)}
    (hpieces : target.pieces = front ++ .name n :: after) (hafter : ∀ x ∈ after, x.idle = true) :
    hasDirSuffix target = !after.isEmpty := by
  unfold hasDirSuffix
  cases after using List.reverseRecOn with
  | nil =>
    rw [hpieces, List.getLast?_concat]
    rfl
  | append_singleton after x =>
    have hcut : target.pieces = (front ++ .name n :: after) ++ [x] := by
      rw [hpieces, List.append_assoc]
      rfl
    have hlast : target.pieces.getLast? = some x := by rw [hcut, List.getLast?_concat]
    have hlen : 2 ≤ target.pieces.length := by
      rw [hcut, List.length_append, List.length_append, List.length_cons, List.length_singleton]
      omega
    rw [hlast]
    cases x with
    | empty => simp
    | dot => simp [hlen]
    | dotdot => exact absurd (hafter .dotdot (by simp)) (by decide)
    | name m => exact absurd (hafter (.name m) (by simp)) nofun

/-- Whether the file that was written is what the target names now.  A new file is named
by the target unless that ends in a slash or a dot. -/
theorem Found.names (h : Found host target P) (content : String) (htakes : host.tree.Takes P) :
    (host.after (host.tree.write P content htakes)).canonicalize target = .ok P ↔
      host.canonicalize target = .ok P ∨ hasDirSuffix target = false := by
  have hext := Tree.write_extends content htakes
  cases h with
  | existing hresolves hfile => exact iff_of_true (resolve_extends hext hresolves) (.inl hresolves)
  | @new dir n before after parent hP hdir habsent habs hpieces hbefore hafter hres =>
    have hbad : host.canonicalize target ≠ .ok P := by
      intro hok
      obtain ⟨o, ho⟩ := get_of_resolve hok
      cases habsent.symm.trans ho
    have hfile := Tree.get_write_self content htakes
    have hdir' := hext.dir hdir
    rw [hasDirSuffix_eq hpieces hafter]
    obtain ⟨-, hwalk⟩ := resolve_target (host.after (host.tree.write P content htakes)) true hpieces hbefore
      (hres.extends hext)
    obtain ⟨k, hk⟩ := hwalk hdir'
    have hnow : (host.after (host.tree.write P content htakes)).canonicalize target =
        walk (host.tree.write P content htakes) true k P after := by
      subst hP
      exact hk.trans (walk_down hdir' hfile rfl)
    rw [hnow, or_iff_right hbad]
    cases after with
    | nil => simp
    | cons x after =>
      have hnotDir : (host.tree.write P content htakes).isDir P = false := by
        unfold Tree.isDir
        rw [hfile]
        rfl
      simp [walk_notDir hnotDir]

end Write

/-! ## The sandbox contains -/

/-- A path that is accepted for reading resolves, inside a grant and free of links, to a
regular file.  Writing to a path that is accepted for writing succeeds and changes one
object, which is inside a grant; and that is what the target names exactly if the target
resolved before, or does not end in `/` or `/.`. -/
theorem sandbox_contains (sandbox : ToolSandbox) (host : Host) (target : FilePath) (P : List FileName) (content : String) :
    (sandbox.checkRead host target = .ok P → ReadsInside sandbox host target P) ∧
    (sandbox.checkWrite host target = .ok P →
      ∃ tree, writeNoFollow host (.ofNames P) content = .ok tree ∧ Granted host sandbox.fsWrite P ∧
        tree.get P = some (.file content) ∧ (∀ q, q ≠ P → tree.get q = host.tree.get q) ∧
        ((host.after tree).canonicalize target = .ok P ↔
          host.canonicalize target = .ok P ∨ hasDirSuffix target = false)) := by
  refine ⟨readsInside_of_checkRead, fun h => ?_⟩
  obtain ⟨hgranted, hfound⟩ := found_of_checkWrite h
  have htakes := hfound.takes
  exact ⟨_, writeNoFollow_of_takes htakes content, hgranted, Tree.get_write_self content htakes,
    fun q hq => Tree.get_write_of_ne content htakes hq, hfound.names content htakes⟩

/-! ## A slash that is dropped -/

def work : FileName := ⟨"w", by decide⟩

def fresh : FileName := ⟨"new", by decide⟩

/-- The root and an empty directory `w`. -/
def emptyWorkspace : Tree FileName String Special where
  get q := if q = [] ∨ q = [work] then some .dir else none
  root := by simp
  above := by
    intro q n o h
    have hq : q = [] := by
      by_contra hne
      rw [if_neg] at h
      · cases h
      · rintro (hnil | hw)
        · simp at hnil
        · cases q with
          | nil => exact hne rfl
          | cons x q => simp at hw
    rw [hq]
    simp

def workspaceHost : Host := ⟨emptyWorkspace, [work], 40⟩

def workspaceSandbox : ToolSandbox := ⟨[⟨true, [.name work]⟩], [⟨true, [.name work]⟩], []⟩

/-- Written without a slash, a new file is what the path names. -/
theorem sandbox_contains_new_file :
    workspaceSandbox.checkWrite workspaceHost ⟨false, [.name fresh]⟩ = .ok [work, fresh] ∧
      ∃ tree, writeNoFollow workspaceHost (.ofNames [work, fresh]) "text" = .ok tree ∧
        (workspaceHost.after tree).canonicalize ⟨false, [.name fresh]⟩ = .ok [work, fresh] := by
  have hok : workspaceSandbox.checkWrite workspaceHost ⟨false, [.name fresh]⟩ = .ok [work, fresh] := by decide +kernel
  obtain ⟨tree, hwrite, -, -, -, hnames⟩ :=
    (sandbox_contains workspaceSandbox workspaceHost ⟨false, [.name fresh]⟩ [work, fresh] "text").2 hok
  exact ⟨hok, tree, hwrite, hnames.mpr (.inr (by decide))⟩

/-- `/w/new/` is accepted where nothing is, a regular file is created, and the path that was
asked for does not name it. -/
theorem slash_dropped :
    workspaceSandbox.checkWrite workspaceHost ⟨true, [.name work, .name fresh, .empty]⟩ = .ok [work, fresh] ∧
      (writeNoFollow workspaceHost (.ofNames [work, fresh]) "text").map
        (fun tree => ((tree.get [work, fresh]).any Object.isFile,
          (workspaceHost.after tree).canonicalize ⟨true, [.name work, .name fresh, .empty]⟩)) =
        .ok (true, .error .notDirectory) := by
  constructor
  · decide +kernel
  · decide +kernel

/-! ## Sessions -/

/-- One call of the tool.  A refusal changes nothing. -/
def Host.call (sandbox : ToolSandbox) (host : Host) (call : FilePath × String) : Host :=
  match execute sandbox host call.1 call.2 with
  | .error _ => host
  | .ok (_, tree) => host.after tree

theorem Host.call_cases (sandbox : ToolSandbox) (host : Host) (call : FilePath × String) :
    host.call sandbox call = host ∨ ∃ P htakes, Granted host sandbox.fsWrite P ∧
      host.call sandbox call = host.after (host.tree.write P call.2 htakes) := by
  unfold Host.call execute
  cases h : sandbox.checkWrite host call.1 with
  | error err => exact .inl rfl
  | ok P =>
    obtain ⟨hgranted, hfound⟩ := found_of_checkWrite h
    refine .inr ⟨P, hfound.takes, hgranted, ?_⟩
    simp only [writeNoFollow_of_takes hfound.takes]
    rfl

/-- What is written may be what a granted path resolves to from then on, but it lies inside a
grant already. -/
theorem Granted.of_write {host : Host} {prefixes : List FilePath} {P names : List FileName} {content : String}
    {htakes : host.tree.Takes P} (hP : Granted host prefixes P)
    (h : Granted (host.after (host.tree.write P content htakes)) prefixes names) : Granted host prefixes names := by
  obtain ⟨granted, hmem, root, hroot, hbelow⟩ := h
  rcases resolve_of_write htakes hroot with rfl | hroot
  · obtain ⟨granted, hmem, above, habove, hroot⟩ := hP
    exact ⟨granted, hmem, above, habove, hroot.trans hbelow⟩
  · exact ⟨granted, hmem, root, hroot, hbelow⟩

/-- Each check resolves the grants anew, in the tree that the calls before it left.  Still all
that a session changes lies inside what was granted when it began, is a file, and was a file
or absent. -/
theorem session_contained (sandbox : ToolSandbox) (host : Host) (calls : List (FilePath × String)) (names : List FileName) :
    (calls.foldl (Host.call sandbox) host).tree.get names = host.tree.get names ∨
      Granted host sandbox.fsWrite names ∧ (host.tree.get names).all Object.isFile = true ∧
        ((calls.foldl (Host.call sandbox) host).tree.get names).any Object.isFile = true := by
  induction calls generalizing host with
  | nil => exact .inl rfl
  | cons call calls ih =>
    have hlater := ih (host.call sandbox call)
    rw [List.foldl_cons]
    rcases Host.call_cases sandbox host call with hcall | ⟨P, htakes, hP, hcall⟩
    · rw [hcall] at hlater ⊢
      exact hlater
    · rw [hcall] at hlater ⊢
      by_cases hnames : names = P
      · subst hnames
        have hfile : ∀ o, host.tree.get names = some o → o.isFile = true := by
          obtain ⟨-, -, -, -, hfile⟩ := htakes
          exact hfile
        refine .inr ⟨hP, Option.all_eq_true .. |>.mpr hfile, ?_⟩
        rcases hlater with hsame | ⟨-, -, hnow⟩
        · rw [hsame, Host.after, Tree.get_write_self]
          rfl
        · exact hnow
      · have hget : (host.after (host.tree.write P call.2 htakes)).tree.get names = host.tree.get names :=
          Tree.get_write_of_ne call.2 htakes hnames
        rw [hget] at hlater
        exact hlater.imp_right (.imp_left hP.of_write)

end FactorQ.Sandbox
