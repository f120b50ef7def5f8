/-
# `FactorQ.Sandbox.Disclosure` — what a refusal says about objects outside the grant

A check that refuses a path outside the grant should not tell what kind of thing is there.
Here the same check is made in two file systems that differ only in the kind of objects
outside the granted prefixes, on a path that resolves in both.

Each check is first brought to one line: what it answers, given where the path resolves to,
whether that is granted, and what stands there.

    read, read a directory, write    grant, then shape
    working directory                shape, then grant

So three of them answer alike whenever the grant covers the path in both file systems or in
neither, and the fourth tells a directory outside the grant from anything else.  The grant
can cover the path in one only: a granted prefix spelled through `d/..` resolves only where
`d` is a directory.
-/
import FactorQ.Sandbox.Containment

namespace FactorQ.Sandbox

open Lib.FileTree ToolSandbox

/-! ## Verdicts -/

/-- Which error it is, without what it says. -/
inductive ErrorVariant where
  | permissionDenied
  | notFound
  | invalidPath
  | notRegularFile
  | io
  | misquotedPath
  | unsubstitutedPlaceholder
deriving DecidableEq

def SandboxError.variant : SandboxError → ErrorVariant
  | .permissionDenied _ _ => .permissionDenied
  | .notFound _ => .notFound
  | .invalidPath _ _ => .invalidPath
  | .notRegularFile _ _ _ => .notRegularFile
  | .io _ _ => .io
  | .misquotedPath _ => .misquotedPath
  | .unsubstitutedPlaceholder _ => .unsubstitutedPlaceholder

/-- The path that is handed back, or the variant of the error. -/
abbrev Verdict := Except ErrorVariant (List FileName)

def verdict (r : Except SandboxError (List FileName)) : Verdict := r.mapError SandboxError.variant

/-- The error of a path that looks mangled, whatever went wrong. -/
def mangledAs (target : FilePath) : Option ErrorVariant :=
  let raw := (display target).toList
  if '"' ∈ raw ∨ '\\' ∈ raw then some .misquotedPath
  else if ['$', '\x7b'] <:+: raw then some .unsubstitutedPlaceholder
  else none

theorem variant_flagMangled (target : FilePath) (err : SandboxError) :
    (flagMangled target err).variant = (mangledAs target).getD err.variant := by
  unfold flagMangled mangledAs
  dsimp only
  split
  · rfl
  · split <;> rfl

/-- A verdict with the errors of a mangled path. -/
def flagged (target : FilePath) (v : Verdict) : Verdict := v.mapError fun e => (mangledAs target).getD e

theorem verdict_flagMangled (target : FilePath) (r : Except SandboxError (List FileName)) :
    verdict (r.mapError (flagMangled target)) = flagged target (verdict r) := by
  cases r with
  | error err => exact congrArg Except.error (variant_flagMangled target err)
  | ok P => rfl

/-! ## What each check answers -/

section Answers

variable {sandbox : ToolSandbox} {host : Host} {target : FilePath} {P : List FileName} {o : FileObject}

theorem any_within_iff {prefixes : List FilePath} : prefixes.any (within host P) = true ↔ Granted host prefixes P := by
  rw [List.any_eq_true]
  unfold Granted within
  constructor
  · rintro ⟨granted, hmem, hwithin⟩
    split at hwithin
    · next root hroot => exact ⟨granted, hmem, root, hroot, List.isPrefixOf_iff_prefix.mp hwithin⟩
    · cases hwithin
  · rintro ⟨granted, hmem, root, hroot, hpre⟩
    refine ⟨granted, hmem, ?_⟩
    rw [hroot]
    exact List.isPrefixOf_iff_prefix.mpr hpre

/-- Grant, then shape. -/
def grantThenShape (granted accepted : Bool) (P : List FileName) : Verdict :=
  if granted then if accepted then .ok P else .error .notRegularFile else .error .permissionDenied

/-- Shape, then grant. -/
def shapeThenGrant (granted directory : Bool) (P : List FileName) : Verdict :=
  if directory then if granted then .ok P else .error .permissionDenied else .error .invalidPath

theorem verdict_within_shape (prefixes : List FilePath) (dimension : String) (shape : FileShape)
    (hget : host.tree.get P = some o) (ho : o.isSymlink = false) :
    verdict (do
      let canonical ← checkWithin host P prefixes dimension target
      shape.check host canonical target
      return canonical) = grantThenShape (prefixes.any (within host P)) (shape.accepts o) P := by
  unfold checkWithin grantThenShape
  cases prefixes.any (within host P) with
  | false => rfl
  | true =>
    have hshape : shape.check host P target =
        if shape.accepts o then .ok () else .error (.notRegularFile target shape.wanted (describeFileType o)) := by
      rw [FileShape.check, metadata_ofNames hget ho]
    simp only [if_true, bind, Except.bind, hshape]
    cases shape.accepts o <;> rfl

theorem verdict_checkReadImpl (sandbox : ToolSandbox) (shape : FileShape) (hP : host.canonicalize target = .ok P)
    (hget : host.tree.get P = some o) :
    verdict (sandbox.checkReadImpl host target shape) =
      grantThenShape (sandbox.fsRead.any (within host P)) (shape.accepts o) P := by
  unfold checkReadImpl
  cases hempty : sandbox.fsRead with
  | nil => rfl
  | cons g gs =>
    rw [← hempty, if_neg (by simp [hempty]), canonicaliseExisting, hP]
    exact verdict_within_shape sandbox.fsRead "fs_read" shape hget (not_symlink_of_resolve hP o hget)

theorem verdict_checkWriteImpl (hP : host.canonicalize target = .ok P) (hget : host.tree.get P = some o) :
    verdict (sandbox.checkWriteImpl host target) =
      grantThenShape (sandbox.fsWrite.any (within host P)) o.isFile P := by
  unfold checkWriteImpl
  cases hempty : sandbox.fsWrite with
  | nil => rfl
  | cons g gs =>
    have hfor : canonicaliseForWrite host target = .ok (P, true) := by
      obtain ⟨q, hq⟩ := resolve_unfollowed hP
      obtain ⟨o', ho'⟩ := get_of_resolve hq
      have hmeta : host.symlinkMetadata target = .ok o' := by
        unfold Host.symlinkMetadata Host.stat
        rw [hq]
        show (host.tree.get q).elim _ _ = _
        rw [ho']
        rfl
      unfold canonicaliseForWrite
      rw [hmeta, hP]
    rw [← hempty, if_neg (by simp [hempty]), hfor]
    exact verdict_within_shape sandbox.fsWrite "fs_write" .regular hget (not_symlink_of_resolve hP o hget)

theorem verdict_checkExecCwdImpl (hne : sandbox.execCwd ≠ []) (hP : host.canonicalize target = .ok P)
    (hget : host.tree.get P = some o) :
    verdict (sandbox.checkExecCwdImpl host target) =
      shapeThenGrant (sandbox.execCwd.any (within host P)) o.isDir P := by
  have hdir : checkExecCwdImpl.isDir host P = o.isDir := by
    rw [checkExecCwdImpl.isDir, metadata_ofNames hget (not_symlink_of_resolve hP o hget)]
  unfold checkExecCwdImpl
  rw [if_neg (by simpa using hne), canonicaliseExisting, hP]
  dsimp only
  rw [hdir]
  unfold shapeThenGrant checkWithin
  cases o.isDir with
  | false => rfl
  | true => cases sandbox.execCwd.any (within host P) <;> rfl

end Answers

/-! ## Two file systems -/

/-- Alike but for the kind of objects outside the granted prefixes.  Links are no such
kind. -/
structure AlikeOutside (prefixes : List FilePath) (h₁ h₂ : Host) : Prop where
  cwd : h₂.cwd = h₁.cwd
  links : h₂.links = h₁.links
  objects : ∀ q, h₂.tree.get q = h₁.tree.get q ∨
    ∃ o₁ o₂, h₁.tree.get q = some o₁ ∧ h₂.tree.get q = some o₂ ∧ o₁.isSymlink = false ∧ o₂.isSymlink = false ∧
      ¬ Granted h₁ prefixes q ∧ ¬ Granted h₂ prefixes q

/-- The grant covers the path in both file systems, or in neither. -/
def CoveredAlike (prefixes : List FilePath) (h₁ h₂ : Host) (P : List FileName) : Prop :=
  Granted h₁ prefixes P ↔ Granted h₂ prefixes P

namespace AlikeOutside

variable {prefixes : List FilePath} {h₁ h₂ : Host} {target : FilePath} {P P' : List FileName} {o₁ o₂ : FileObject}

section

variable (h : AlikeOutside prefixes h₁ h₂)
include h

theorem sameLinks : h₁.tree.SameLinks h₂.tree := by
  intro q link
  rcases h.objects q with heq | ⟨o₁, o₂, ho₁, ho₂, hs₁, hs₂, -, -⟩
  · rw [heq]
  · rw [ho₁, ho₂]
    constructor
    · rintro ⟨⟩
      cases hs₁
    · rintro ⟨⟩
      cases hs₂

theorem canonicalize_unique (hP : h₁.canonicalize target = .ok P) (hP' : h₂.canonicalize target = .ok P') :
    P' = P := by
  have hres := (resolves_of_resolve hP).2
  have hres' := (resolves_of_resolve hP').2
  rw [h.cwd, h.links] at hres'
  exact hres.unique h.sameLinks hres'

/-- Prefixes that resolve in both file systems or in neither cover the same paths. -/
theorem coveredAlike (hall : ∀ g ∈ prefixes, (∃ r, h₁.canonicalize g = .ok r) ↔ ∃ r, h₂.canonicalize g = .ok r) :
    CoveredAlike prefixes h₁ h₂ P := by
  constructor
  · rintro ⟨g, hg, root, hroot, hpre⟩
    obtain ⟨root', hroot'⟩ := (hall g hg).mp ⟨root, hroot⟩
    cases h.canonicalize_unique hroot hroot'
    exact ⟨g, hg, root, hroot', hpre⟩
  · rintro ⟨g, hg, root, hroot, hpre⟩
    obtain ⟨root', hroot'⟩ := (hall g hg).mpr ⟨root, hroot⟩
    cases h.canonicalize_unique hroot' hroot
    exact ⟨g, hg, root, hroot', hpre⟩

/-- Where the grant covers, in either of them, the objects are the same. -/
theorem object_eq (ho₁ : h₁.tree.get P = some o₁) (ho₂ : h₂.tree.get P = some o₂)
    (hin : prefixes.any (within h₁ P) = true ∨ prefixes.any (within h₂ P) = true) : o₂ = o₁ := by
  rw [any_within_iff, any_within_iff] at hin
  rcases h.objects P with heq | ⟨_, _, _, _, _, _, hout₁, hout₂⟩
  · rw [ho₁, ho₂] at heq
    exact Option.some.inj heq
  · rcases hin with hin | hin
    · exact absurd hin hout₁
    · exact absurd hin hout₂

end

end AlikeOutside

/-! ## When two verdicts agree -/

theorem grantThenShape_agree (target : FilePath) (P : List FileName) {g₁ g₂ a₁ a₂ : Bool}
    (hsame : g₁ = true ∨ g₂ = true → a₂ = a₁) :
    flagged target (grantThenShape g₁ a₁ P) = flagged target (grantThenShape g₂ a₂ P) ↔
      (g₁ = true ↔ g₂ = true) ∨ (mangledAs target).isSome = true ∧ a₁ = false := by
  cases g₁ <;> cases g₂
  · exact iff_of_true rfl (.inl Iff.rfl)
  · cases hsame (.inr rfl)
    cases a₁ <;> cases hm : mangledAs target <;> simp [flagged, grantThenShape, Except.mapError, hm]
  · cases hsame (.inl rfl)
    cases a₁ <;> cases hm : mangledAs target <;> simp [flagged, grantThenShape, Except.mapError, hm]
  · cases hsame (.inl rfl)
    exact iff_of_true rfl (.inl Iff.rfl)

theorem shapeThenGrant_agree (target : FilePath) (P : List FileName) {g₁ g₂ d₁ d₂ : Bool}
    (hsame : g₁ = true ∨ g₂ = true → d₂ = d₁) :
    flagged target (shapeThenGrant g₁ d₁ P) = flagged target (shapeThenGrant g₂ d₂ P) ↔
      (d₁ = d₂ ∧ (d₁ = true → (g₁ = true ↔ g₂ = true))) ∨ (mangledAs target).isSome = true ∧ d₁ ≠ d₂ := by
  cases d₁ <;> cases d₂
  · exact iff_of_true rfl (.inl ⟨rfl, nofun⟩)
  · have hout : g₁ = false ∧ g₂ = false := by
      cases g₁ <;> cases g₂ <;> simp at hsame ⊢
    rw [hout.1, hout.2]
    cases hm : mangledAs target <;> simp [flagged, shapeThenGrant, Except.mapError, hm]
  · have hout : g₁ = false ∧ g₂ = false := by
      cases g₁ <;> cases g₂ <;> simp at hsame ⊢
    rw [hout.1, hout.2]
    cases hm : mangledAs target <;> simp [flagged, shapeThenGrant, Except.mapError, hm]
  · cases g₁ <;> cases g₂ <;> simp [flagged, shapeThenGrant, Except.mapError]

section Agree

variable {sandbox : ToolSandbox} {h₁ h₂ : Host} {target : FilePath} {P : List FileName} {o₁ o₂ : FileObject}

/-- A check that asks for the grant first, on a path that resolves in both. -/
theorem grant_first_agree {prefixes : List FilePath} (shape : FileShape) {r₁ r₂ : Except SandboxError (List FileName)}
    (halike : AlikeOutside prefixes h₁ h₂) (ho₁ : h₁.tree.get P = some o₁) (ho₂ : h₂.tree.get P = some o₂)
    (hv₁ : verdict r₁ = grantThenShape (prefixes.any (within h₁ P)) (shape.accepts o₁) P)
    (hv₂ : verdict r₂ = grantThenShape (prefixes.any (within h₂ P)) (shape.accepts o₂) P) :
    verdict (r₁.mapError (flagMangled target)) = verdict (r₂.mapError (flagMangled target)) ↔
      CoveredAlike prefixes h₁ h₂ P ∨
        (mangledAs target).isSome = true ∧ (h₁.tree.get P).any shape.accepts = false := by
  rw [verdict_flagMangled, verdict_flagMangled, hv₁, hv₂, grantThenShape_agree target P fun hin => by
    rw [halike.object_eq ho₁ ho₂ hin], any_within_iff, any_within_iff, ho₁]
  rfl

theorem isDir_eq {t : Tree FileName String Special} {o : FileObject} (h : t.get P = some o) : t.isDir P = o.isDir := by
  rw [Tree.isDir, h]
  rfl

theorem shape_first_agree (hne : sandbox.execCwd ≠ []) (halike : AlikeOutside sandbox.execCwd h₁ h₂)
    (hP₁ : h₁.canonicalize target = .ok P) (hP₂ : h₂.canonicalize target = .ok P)
    (ho₁ : h₁.tree.get P = some o₁) (ho₂ : h₂.tree.get P = some o₂) :
    verdict (sandbox.checkExecCwd h₁ target) = verdict (sandbox.checkExecCwd h₂ target) ↔
      (h₁.tree.isDir P = h₂.tree.isDir P ∧ (h₁.tree.isDir P = true → CoveredAlike sandbox.execCwd h₁ h₂ P)) ∨
        (mangledAs target).isSome = true ∧ h₁.tree.isDir P ≠ h₂.tree.isDir P := by
  unfold checkExecCwd
  rw [verdict_flagMangled, verdict_flagMangled, verdict_checkExecCwdImpl hne hP₁ ho₁,
    verdict_checkExecCwdImpl hne hP₂ ho₂, shapeThenGrant_agree target P fun hin => by
      rw [halike.object_eq ho₁ ho₂ hin], any_within_iff, any_within_iff, isDir_eq ho₁, isDir_eq ho₂]
  rfl

end Agree

/-! ## What the refusals reveal -/

/-- Of a path that resolves in two file systems alike but for the kind of objects outside
the grant.  The checks for reading and writing answer alike exactly if the grant covers the
path in both or in neither, or the path looks mangled and is not of the shape wanted anyway.
The check for a working directory answers alike exactly if nothing is granted, or the path
is a directory in both or in neither and then covered in both or in neither, or it looks
mangled. -/
theorem refusals_reveal (sandbox : ToolSandbox) (h₁ h₂ : Host) (target : FilePath) (P P' : List FileName)
    (hP : h₁.canonicalize target = .ok P) (hP' : h₂.canonicalize target = .ok P') :
    (AlikeOutside sandbox.fsRead h₁ h₂ →
      (verdict (sandbox.checkRead h₁ target) = verdict (sandbox.checkRead h₂ target) ↔
        CoveredAlike sandbox.fsRead h₁ h₂ P ∨
          (mangledAs target).isSome = true ∧ (h₁.tree.get P).any Object.isFile = false) ∧
      (verdict (sandbox.checkReadDir h₁ target) = verdict (sandbox.checkReadDir h₂ target) ↔
        CoveredAlike sandbox.fsRead h₁ h₂ P ∨
          (mangledAs target).isSome = true ∧ (h₁.tree.get P).any Object.isDir = false)) ∧
    (AlikeOutside sandbox.fsWrite h₁ h₂ →
      (verdict (sandbox.checkWrite h₁ target) = verdict (sandbox.checkWrite h₂ target) ↔
        CoveredAlike sandbox.fsWrite h₁ h₂ P ∨
          (mangledAs target).isSome = true ∧ (h₁.tree.get P).any Object.isFile = false)) ∧
    (AlikeOutside sandbox.execCwd h₁ h₂ →
      (verdict (sandbox.checkExecCwd h₁ target) = verdict (sandbox.checkExecCwd h₂ target) ↔
        sandbox.execCwd = [] ∨
          (h₁.tree.isDir P = h₂.tree.isDir P ∧ (h₁.tree.isDir P = true → CoveredAlike sandbox.execCwd h₁ h₂ P)) ∨
          (mangledAs target).isSome = true ∧ h₁.tree.isDir P ≠ h₂.tree.isDir P)) := by
  obtain ⟨o₁, ho₁⟩ := get_of_resolve hP
  refine ⟨fun halike => ?_, fun halike => ?_, fun halike => ?_⟩
  · cases halike.canonicalize_unique hP hP'
    obtain ⟨o₂, ho₂⟩ := get_of_resolve hP'
    exact ⟨grant_first_agree .regular halike ho₁ ho₂ (verdict_checkReadImpl _ _ hP ho₁)
        (verdict_checkReadImpl _ _ hP' ho₂),
      grant_first_agree .directory halike ho₁ ho₂ (verdict_checkReadImpl _ _ hP ho₁)
        (verdict_checkReadImpl _ _ hP' ho₂)⟩
  · cases halike.canonicalize_unique hP hP'
    obtain ⟨o₂, ho₂⟩ := get_of_resolve hP'
    exact grant_first_agree .regular halike ho₁ ho₂ (verdict_checkWriteImpl hP ho₁) (verdict_checkWriteImpl hP' ho₂)
  · cases halike.canonicalize_unique hP hP'
    obtain ⟨o₂, ho₂⟩ := get_of_resolve hP'
    by_cases hempty : sandbox.execCwd = []
    · refine iff_of_true ?_ (.inl hempty)
      have hnone : ∀ h : Host, sandbox.checkExecCwdImpl h target = .error (nothingGranted target "exec_cwd") := by
        intro h
        rw [checkExecCwdImpl, hempty]
        rfl
      rw [checkExecCwd, checkExecCwd, hnone, hnone]
    · rw [or_iff_right hempty]
      exact shape_first_agree hempty halike hP hP' ho₁ ho₂

/-! ## A directory outside the grant -/

def secret : FileName := ⟨"s", by decide⟩

/-- The root, an empty directory `w`, and something at `s`. -/
def treeWith (o : FileObject) : Tree FileName String Special where
  get q := if q = [] ∨ q = [work] then some .dir else if q = [secret] then some o else none
  root := by simp
  above := by
    intro q n o' h
    have hq : q = [] := by
      by_contra hne
      obtain ⟨x, xs, rfl⟩ := List.exists_cons_of_ne_nil hne
      simp at h
    rw [hq]
    simp

def hostWith (o : FileObject) : Host := ⟨treeWith o, [work], 40⟩

/-- The directory `w` is granted, for reading under a name that goes through `s`. -/
def detourSandbox : ToolSandbox :=
  ⟨[⟨true, [.name secret, .dotdot, .name work]⟩], [⟨true, [.name work]⟩], [⟨true, [.name work]⟩]⟩

theorem alikeOutside_hostWith {prefixes : List FilePath} {o₁ o₂ : FileObject} (h₁ : o₁.isSymlink = false)
    (h₂ : o₂.isSymlink = false) (hout₁ : prefixes.any (within (hostWith o₁) [secret]) = false)
    (hout₂ : prefixes.any (within (hostWith o₂) [secret]) = false) :
    AlikeOutside prefixes (hostWith o₁) (hostWith o₂) := by
  refine ⟨rfl, rfl, fun q => ?_⟩
  by_cases hs : q = [secret]
  · refine .inr ⟨o₁, o₂, ?_, ?_, h₁, h₂, ?_, ?_⟩
    · rw [hs]
      rfl
    · rw [hs]
      rfl
    · rw [hs, ← any_within_iff, hout₁]
      exact Bool.false_ne_true
    · rw [hs, ← any_within_iff, hout₂]
      exact Bool.false_ne_true
  · refine .inl ?_
    show (treeWith o₂).get q = (treeWith o₁).get q
    simp [treeWith, hs]

/-- Asked for the working directory `/s`, which is outside the grant, the sandbox says that
permission is denied if it is a directory and that the path is invalid if it is a file.  And
`/w` may be read as a directory only if `/s` is one, the grant being spelled through it. -/
theorem exec_cwd_tells_directories :
    AlikeOutside detourSandbox.execCwd (hostWith .dir) (hostWith (.file "")) ∧
      (hostWith .dir).canonicalize ⟨true, [.name secret]⟩ = .ok [secret] ∧
      (hostWith (.file "")).canonicalize ⟨true, [.name secret]⟩ = .ok [secret] ∧
      verdict (detourSandbox.checkExecCwd (hostWith .dir) ⟨true, [.name secret]⟩) = .error .permissionDenied ∧
      verdict (detourSandbox.checkExecCwd (hostWith (.file "")) ⟨true, [.name secret]⟩) = .error .invalidPath ∧
      AlikeOutside detourSandbox.fsRead (hostWith .dir) (hostWith (.file "")) ∧
      verdict (detourSandbox.checkReadDir (hostWith .dir) ⟨true, [.name work]⟩) = .ok [work] ∧
      verdict (detourSandbox.checkReadDir (hostWith (.file "")) ⟨true, [.name work]⟩) = .error .permissionDenied :=
  ⟨alikeOutside_hostWith rfl rfl (by decide +kernel) (by decide +kernel), by decide +kernel, by decide +kernel,
    by decide +kernel, by decide +kernel, alikeOutside_hostWith rfl rfl (by decide +kernel) (by decide +kernel),
    by decide +kernel, by decide +kernel⟩

/-- Writing to `/s` is refused alike, whether it is a file or a pipe. -/
theorem refusals_reveal_write :
    (hostWith (.file "")).canonicalize ⟨true, [.name secret]⟩ = .ok [secret] ∧
      verdict (detourSandbox.checkWrite (hostWith (.file "")) ⟨true, [.name secret]⟩) =
        verdict (detourSandbox.checkWrite (hostWith (.special .fifo)) ⟨true, [.name secret]⟩) := by
  have halike : AlikeOutside detourSandbox.fsWrite (hostWith (.file "")) (hostWith (.special .fifo)) :=
    alikeOutside_hostWith rfl rfl (by decide +kernel) (by decide +kernel)
  have hagree := (refusals_reveal detourSandbox (hostWith (.file "")) (hostWith (.special .fifo))
    ⟨true, [.name secret]⟩ [secret] [secret] (by decide +kernel) (by decide +kernel)).2.1 halike
  refine ⟨by decide +kernel, hagree.mpr (.inl (halike.coveredAlike fun g hg => ?_))⟩
  cases List.mem_singleton.mp hg
  exact ⟨fun _ => ⟨[work], by decide +kernel⟩, fun _ => ⟨[work], by decide +kernel⟩⟩

end FactorQ.Sandbox
