/-
# `FactorQ.Mcp.Naming` — the names tools are offered under

A tool of a server is offered as `<server>__<tool>`.  The id of the server is checked: it
has no underscore, so the first `__` of a name is where the server ends.  The name of the
tool is whatever the server says.  The composed name is checked for its length only, so the
characters a provider accepts are those of the remote name (`tool_names_sound`).

Lengths are counted in bytes.  The test of an id is made on bytes too; it holds of no byte of
a character outside ASCII, so it is a test of characters.
-/
import Mathlib

namespace FactorQ.Mcp

inductive McpError where
  | toolDiscovery (command reason : String)
deriving DecidableEq

def serverChar (c : Char) : Bool := c.isLower || c.isDigit || c = '-'

def validateServerName (name : String) : Except McpError Unit :=
  if name = "builtin" then
    .error (.toolDiscovery name "server id 'builtin' is reserved for runtime tools")
  else if name.isEmpty || 48 < name.utf8ByteSize || !name.toList.all serverChar then
    .error (.toolDiscovery name "server id must match [a-z0-9-]+ and be at most 48 characters")
  else .ok ()

def namespacedToolName (serverName remoteName : String) : Except McpError String :=
  let name := serverName ++ "__" ++ remoteName
  if 64 < name.utf8ByteSize then
    .error (.toolDiscovery serverName s!"namespaced tool name '{name}' exceeds 64 characters")
  else .ok name

/-- What providers accept in a tool name. -/
def NameChar (c : Char) : Prop := c.isAlphanum = true ∨ c = '_' ∨ c = '-'

instance decidableNameChar (c : Char) : Decidable (NameChar c) := inferInstanceAs (Decidable (_ ∨ _))

/-- What stands before and after the first double underscore. -/
def splitNamespace : List Char → Option (List Char × List Char)
  | [] => none
  | '_' :: '_' :: rest => some ([], rest)
  | c :: rest => (splitNamespace rest).map fun p => (c :: p.1, p.2)

theorem splitNamespace_cons {c : Char} (hc : c ≠ '_') (rest : List Char) :
    splitNamespace (c :: rest) = (splitNamespace rest).map fun p => (c :: p.1, p.2) := by
  rw [splitNamespace]
  rintro r he
  exact (hc he).elim

/-- The first `__` is the one that was put there, whatever follows it. -/
theorem splitNamespace_append {server : List Char} (h : ∀ c ∈ server, c ≠ '_') (remote : List Char) :
    splitNamespace (server ++ '_' :: '_' :: remote) = some (server, remote) := by
  induction server with
  | nil => rfl
  | cons c server ih =>
    rw [List.cons_append, splitNamespace_cons (h c List.mem_cons_self),
      ih fun c' hc' => h c' (List.mem_cons_of_mem c hc')]
    rfl

theorem validateServerName_ok {name : String} (h : validateServerName name = .ok ()) :
    ∀ c ∈ name.toList, serverChar c = true := by
  unfold validateServerName at h
  split at h
  · cases h
  · split at h
    · cases h
    · next hbad =>
      have hall : name.toList.all serverChar = true := by simp_all
      exact List.all_eq_true.mp hall

theorem serverChar_ne {c : Char} (h : serverChar c = true) : c ≠ '_' := by
  rintro rfl
  revert h
  decide

theorem serverChar_nameChar {c : Char} (h : serverChar c = true) : NameChar c := by
  simp only [serverChar, Bool.or_eq_true, decide_eq_true_eq] at h
  rcases h with (h | h) | h
  · exact .inl (by simp [Char.isAlphanum, Char.isAlpha, h])
  · exact .inl (by simp [Char.isAlphanum, h])
  · exact .inr (.inr h)

theorem namespacedToolName_ok {server remote name : String} (h : namespacedToolName server remote = .ok name) :
    name.utf8ByteSize ≤ 64 ∧ name.toList = server.toList ++ '_' :: '_' :: remote.toList := by
  unfold namespacedToolName at h
  dsimp only at h
  split at h
  · cases h
  · next hle =>
    cases h
    exact ⟨not_lt.mp hle, by simp⟩

theorem length_le_utf8ByteSize (s : List Char) : s.length ≤ (String.ofList s).utf8ByteSize := by
  induction s with
  | nil => exact Nat.zero_le _
  | cons c s ih =>
    rw [String.ofList_cons, String.utf8ByteSize_append, String.utf8ByteSize_singleton, List.length_cons]
    have hc : 0 < c.utf8Size := c.utf8Size_pos
    omega

/-- A composed name has at most 64 characters, its first double underscore gives the server
and the remote name back, and no other pair has it; its characters are those a provider accepts
exactly if those of the remote name are. -/
theorem tool_names_sound (server remote name : String) (hserver : validateServerName server = .ok ())
    (h : namespacedToolName server remote = .ok name) :
    name.length ≤ 64 ∧ splitNamespace name.toList = some (server.toList, remote.toList) ∧
    (∀ server' remote', validateServerName server' = .ok () → namespacedToolName server' remote' = .ok name →
      server' = server ∧ remote' = remote) ∧
    ((∀ c ∈ name.toList, NameChar c) ↔ ∀ c ∈ remote.toList, NameChar c) := by
  have hsplit : ∀ {server remote : String}, validateServerName server = .ok () →
      namespacedToolName server remote = .ok name →
      splitNamespace name.toList = some (server.toList, remote.toList) := by
    intro server remote hserver h
    rw [(namespacedToolName_ok h).2]
    exact splitNamespace_append (fun c hc => serverChar_ne (validateServerName_ok hserver c hc)) _
  obtain ⟨hsize, hname⟩ := namespacedToolName_ok h
  have hlen := length_le_utf8ByteSize name.toList
  rw [String.ofList_toList, String.length_toList] at hlen
  refine ⟨hlen.trans hsize, hsplit hserver h, ?_, ?_⟩
  · intro server' remote' hserver' h'
    have hboth := (hsplit hserver' h').symm.trans (hsplit hserver h)
    simp only [Option.some.injEq, Prod.mk.injEq, String.toList_inj] at hboth
    exact hboth
  · rw [hname]
    constructor
    · intro hall c hc
      exact hall c (by simp [hc])
    · intro hall c hc
      simp only [List.mem_append, List.mem_cons] at hc
      rcases hc with hc | rfl | rfl | hc
      · exact serverChar_nameChar (validateServerName_ok hserver c hc)
      · exact .inr (.inl rfl)
      · exact .inr (.inl rfl)
      · exact hall c hc

/-- A remote name that starts with underscores. -/
theorem private_tool_splits : splitNamespace "fs___read".toList = some ("fs".toList, "_read".toList) :=
  (tool_names_sound "fs" "_read" "fs___read" (by decide +kernel) (by decide +kernel)).2.1

/-- A name with a dot goes through. -/
theorem dotted_name_accepted :
    validateServerName "fs" = .ok () ∧ namespacedToolName "fs" "read.file" = .ok "fs__read.file" ∧
      '.' ∈ "fs__read.file".toList ∧ ¬ NameChar '.' := by
  decide +kernel

end FactorQ.Mcp
