/-
# `FactorQ.Grants.Gate` — the gate in front of the names

Whoever comes with a token passes the gate.  It verifies the token, asks whether the token
permits the operation, and asks the projection of the grant log whether some live grant
allows it.  Grants are managed here as well: an agent may delegate what a live grant of its
own supports, and revoke what it issued; the operator may do both without a token.

Two things are shown.

  * A list answered on the strength of a grant names nothing outside the scope of that grant
    (`listing_is_covered`).
  * A delegation is let through exactly if it will be live once it is appended, unless its
    number was revoked before it was given out (`delegation_will_be_live`).  The log takes
    such revocations, so that revocations win in whatever order events arrive; the gate and
    the operator look a grant up before they revoke it.

Signatures are not modelled: `verify` says what a signed text verifies as.
-/
import FactorQ.Store.NameList
import FactorQ.Grants.Chain
import FactorQ.Grants.Projection
import FactorQ.Grants.Token

namespace FactorQ.Grants

open Lib GrantLog GrantModel

/-! ## Principals and scopes -/

/-- `char::is_whitespace`. -/
def isWhitespace (c : Char) : Bool :=
  let n := c.toNat
  (9 ≤ n && n ≤ 13) || n = 0x20 || n = 0x85 || n = 0xA0 || n = 0x1680 || (0x2000 ≤ n && n ≤ 0x200A) ||
    n = 0x2028 || n = 0x2029 || n = 0x202F || n = 0x205F || n = 0x3000

/-- `char::is_control`. -/
def isControl (c : Char) : Bool := c.toNat < 0x20 || (0x7F ≤ c.toNat && c.toNat ≤ 0x9F)

def Principal.hasValidId : Principal → Bool
  | agent id =>
    id ≠ "" && id.toList.all fun c => c ≠ '.' && c ≠ '*' && c ≠ '>' && !isWhitespace c && !isControl c

/-- How a denial names the scope of an operation. -/
def Scope.display : Scope → String
  | name v => v
  | nameSpace v => v ++ ".*"

/-! ## The gate -/

inductive GateError where
  | token (message : String)
  | denied (message : String)
  | store (err : StoreError)
deriving DecidableEq

structure VerifiedToken where
  token : Datalog.Token
  principal : Principal

structure Gate (Cid : Type) where
  codec : VerbCodec
  verify : String → Except GateError VerifiedToken
  index : Store.Index Cid
  grants : GrantLog

namespace GrantLog

/-- The grant as the projection has it, whether live or not. -/
def issuedGrant (log : GrantLog) (id : GrantId) : Option (Grantor × Scope) :=
  (log.projected.get? (asI64 id)).map fun g =>
    (Grantor.ofColumn g.grantorAgent, Scope.fromKindValue g.scopeKind g.scopeValue)

/-- The flag of the projection. -/
def isLive (log : GrantLog) (id : GrantId) : Bool := (log.projected.get? (asI64 id)).any ProjectedGrant.live

/-- The subject holds a live grant that supports the delegation. -/
def hasAuthority (codec : VerbCodec) (log : GrantLog) (principal : Principal) (verbs : Finset Verb) (scope : Scope) :
    Except StoreError Bool := do
  let grants ← log.liveGrantsFor codec principal
  return grants.any fun g => supports g.verbs g.scope verbs scope

end GrantLog

namespace Gate

variable {Cid : Type}

/-- The token is genuine, its subject well-formed, and it permits the operation now. -/
def identify (gate : Gate Cid) (now : Int) (token : String) (verb : Verb) (resource : Scope) :
    Except GateError Principal := do
  let verified ← gate.verify token
  if verified.principal.hasValidId then
    if permits verified.token verb resource now then return verified.principal
    else
      .error (.denied (verified.principal.column ++ "'s token does not permit " ++ verb.asStr ++ " on " ++
        resource.display ++ " (expired or attenuated)"))
  else .error (.token "principal id is not a valid agent id")

/-- A live grant lets the subject list the namespace. -/
def mayList (gate : Gate Cid) (principal : Principal) (pre : String) : Except GateError Bool :=
  if principal.owns pre then .ok true
  else do
    let grants ← (gate.grants.liveGrantsFor gate.codec principal).mapError .store
    return grants.any fun g => .list ∈ g.verbs && g.scope.coversScope (.nameSpace pre)

def list (gate : Gate Cid) (now : Int) (token pre : String) : Except GateError (List String) :=
  if pre = "" then .error (.denied "listing all names requires the operator; supply a namespace prefix")
  else do
    let principal ← gate.identify now token .list (.nameSpace pre)
    if ← gate.mayList principal pre then return gate.index.list pre
    else
      .error (.denied (principal.column ++ " may not list " ++ pre ++ " (needs a list grant covering the namespace " ++
        pre ++ ".*)"))

/-- Everything the gate asks before it appends a delegation. -/
def mayGrant (gate : Gate Cid) (now : Int) (token : String) (grantee : Principal) (verbs : Finset Verb) (scope : Scope) :
    Except GateError Principal := do
  let principal ← gate.identify now token .grant scope
  if grantee.hasValidId then
    if ← (gate.grants.hasAuthority gate.codec principal verbs scope).mapError .store then return principal
    else
      .error (.denied (principal.column ++
        " holds no live grant covering the delegation (grant verb, superset verbs, covering scope)"))
  else .error (.token "grantee id is not a valid agent id")

/-- Append to the log; a transaction that fails leaves it as it was. -/
def append (gate : Gate Cid) (grant : GrantRow) : Except GateError GrantId × Gate Cid :=
  match gate.grants.appendGranted gate.codec grant with
  | .error err => (.error (.store err), gate)
  | .ok (log, id) => (.ok id, { gate with grants := log })

def grant (gate : Gate Cid) (now : Int) (token : String) (grantee : Principal) (verbs : Finset Verb) (scope : Scope) :
    Except GateError GrantId × Gate Cid :=
  match gate.mayGrant now token grantee verbs scope with
  | .error err => (.error err, gate)
  | .ok principal => gate.append ⟨.agent principal.column, grantee, verbs, scope⟩

def operatorGrant (gate : Gate Cid) (grantee : Principal) (verbs : Finset Verb) (scope : Scope) :
    Except GateError GrantId × Gate Cid :=
  if grantee.hasValidId then gate.append ⟨.operator, grantee, verbs, scope⟩
  else (.error (.token "grantee id is not a valid agent id"), gate)

/-- Withdraw a grant that exists. -/
def withdraw (gate : Gate Cid) (id : GrantId) : Except GateError Unit × Gate Cid :=
  match gate.grants.appendRevoked gate.codec id with
  | .error err => (.error (.store err), gate)
  | .ok log => (.ok (), { gate with grants := log })

/-- An agent revokes what it issued, if its token permits granting there. -/
def mayRevoke (gate : Gate Cid) (now : Int) (token : String) (id : GrantId) : Except GateError Unit := do
  let verified ← gate.verify token
  if verified.principal.hasValidId then
    let agent := verified.principal.column
    match gate.grants.issuedGrant id with
    | none => .error (.denied ("grant " ++ toString id.val ++ " does not exist"))
    | some (grantor, scope) =>
      if grantor = .agent agent then
        if permits verified.token .grant scope now then return ()
        else
          .error (.denied (agent ++ "'s token does not permit revoking grant " ++ toString id.val ++
            " (expired, or attenuated away from grant on " ++ scope.display ++ ")"))
      else
        .error (.denied (agent ++ " did not issue grant " ++ toString id.val ++
          "; only its issuer or the operator may revoke it"))
  else .error (.token "principal id is not a valid agent id")

def revoke (gate : Gate Cid) (now : Int) (token : String) (id : GrantId) : Except GateError Unit × Gate Cid :=
  match gate.mayRevoke now token id with
  | .error err => (.error err, gate)
  | .ok () => gate.withdraw id

def operatorRevoke (gate : Gate Cid) (id : GrantId) : Except GateError Unit × Gate Cid :=
  match gate.grants.issuedGrant id with
  | none => (.error (.denied ("grant " ++ toString id.val ++ " does not exist")), gate)
  | some _ => gate.withdraw id

end Gate

/-! ## Listing -/

theorem mem_list_iff {Cid : Type} {ix : Store.Index Cid} {pre name : String} (hpre : pre ≠ "") :
    name ∈ ix.list pre ↔ name ∈ ix.boundNames ∧ namespaceCovers pre name = true := by
  rw [Store.Index.mem_list hpre, Bool.eq_iff_iff.mpr (Store.Index.inRange_iff.trans namespaceCovers_iff.symm)]

theorem Gate.list_ok {Cid : Type} {gate : Gate Cid} {now : Int} {token pre : String} {names : List String}
    (h : gate.list now token pre = .ok names) :
    pre ≠ "" ∧ names = gate.index.list pre ∧ ∃ principal, gate.identify now token .list (.nameSpace pre) = .ok principal ∧
      gate.mayList principal pre = .ok true := by
  unfold Gate.list at h
  split at h
  · cases h
  · next hpre =>
    refine ⟨hpre, ?_⟩
    cases hid : gate.identify now token .list (.nameSpace pre) with
    | error err =>
      rw [hid] at h
      cases h
    | ok principal =>
      rw [hid] at h
      cases hmay : gate.mayList principal pre with
      | error err =>
        simp only [bind, Except.bind, hmay] at h
        cases h
      | ok may =>
        simp only [bind, Except.bind, hmay] at h
        cases may with
        | false => cases h
        | true =>
          cases h
          exact ⟨rfl, principal, rfl, hmay⟩

theorem Gate.mayList_ok {Cid : Type} {gate : Gate Cid} {principal : Principal} {pre : String}
    (h : gate.mayList principal pre = .ok true) :
    principal.owns pre = true ∨ ∃ grants g, gate.grants.liveGrantsFor gate.codec principal = .ok grants ∧ g ∈ grants ∧
      .list ∈ g.verbs ∧ g.scope.coversScope (.nameSpace pre) = true := by
  unfold Gate.mayList at h
  split at h
  · next hown => exact .inl hown
  · cases hgs : gate.grants.liveGrantsFor gate.codec principal with
    | error err =>
      rw [hgs] at h
      cases h
    | ok grants =>
      rw [hgs] at h
      obtain ⟨g, hg, hcond⟩ := List.any_eq_true.mp (Except.ok.inj h)
      rw [Bool.and_eq_true, decide_eq_true_iff] at hcond
      exact .inr ⟨grants, g, rfl, hg, hcond⟩

/-- The index lists the bound names that the prefix covers, in the order of their bytes and
once each.  And the gate answers an agent with such a list, for a prefix that is its own or
that a live grant of its covers; whatever live grant lets it list the prefix covers every
name of the answer. -/
theorem listing_is_covered (Cid : Type) :
    (∀ (ix : Store.Index Cid) (pre : String), pre ≠ "" →
      (ix.list pre).Pairwise (fun a b => Store.bytes a < Store.bytes b) ∧ (ix.list pre).Nodup ∧
        ∀ name, name ∈ ix.list pre ↔ name ∈ ix.boundNames ∧ namespaceCovers pre name = true) ∧
    ∀ (gate : Gate Cid) (now : Int) (token pre : String) (names : List String),
      gate.list now token pre = .ok names →
      ∃ principal, gate.identify now token .list (.nameSpace pre) = .ok principal ∧
        (principal.owns pre = true ∨ ∃ grants g, gate.grants.liveGrantsFor gate.codec principal = .ok grants ∧
          g ∈ grants ∧ .list ∈ g.verbs ∧ g.scope.coversScope (.nameSpace pre) = true) ∧
        ∀ grants g, gate.grants.liveGrantsFor gate.codec principal = .ok grants → g ∈ grants → .list ∈ g.verbs →
          g.scope.coversScope (.nameSpace pre) = true → ∀ name ∈ names, g.scope.covers name = true := by
  constructor
  · intro ix pre hpre
    have hsorted := Store.Index.list_sorted ix pre
    refine ⟨hsorted, hsorted.imp ?_, fun name => mem_list_iff hpre⟩
    rintro a b hlt rfl
    exact lt_irrefl _ hlt
  · intro gate now token pre names h
    obtain ⟨hpre, rfl, principal, hid, hmay⟩ := Gate.list_ok h
    refine ⟨principal, hid, Gate.mayList_ok hmay, ?_⟩
    intro grants g _ _ _ hcov name hname
    exact Scope.covers_of_coversScope hcov ((mem_list_iff hpre).mp hname).2

/-! ## Granting -/

section Granting

variable {codec : VerbCodec} {log : GrantLog} {events : List GrantEvent}

theorem hasAuthority_eq (hs : InStep codec log events) (p : Principal) (verbs : Finset Verb) (scope : Scope) :
    ∃ authority, log.hasAuthority codec p verbs scope = .ok authority ∧
      (authority = true ↔ ∃ id row, (replay events).grants.get? id = some row ∧ (replay events).Live id ∧
        row.grantee = p ∧ supports row.verbs row.scope verbs scope = true) := by
  obtain ⟨gs, hgs, -, hheld⟩ := liveGrantsFor_eq hs p
  refine ⟨gs.any fun g => supports g.verbs g.scope verbs scope, ?_, ?_⟩
  · unfold GrantLog.hasAuthority
    rw [hgs]
    rfl
  · rw [List.any_eq_true]
    constructor
    · rintro ⟨g, hg, hsup⟩
      obtain ⟨row, hrow, hlive, hp, hverbs, hscope⟩ := (hheld g).mp hg
      rw [← hverbs, ← hscope] at hsup
      exact ⟨g.id, row, hrow, mem_liveIds.mp (of_decide_eq_true hlive), hp, hsup⟩
    · rintro ⟨id, row, hrow, hlive, hp, hsup⟩
      exact ⟨⟨id, row.verbs, row.scope⟩, (hheld _).mpr ⟨row, hrow, decide_eq_true (mem_liveIds.mpr hlive), hp, rfl, rfl⟩,
        hsup⟩

theorem isLive_eq (hs : InStep codec log events) {id : GrantId} {row : GrantRow} (h : .granted id row ∈ events) :
    log.isLive id = true ↔ (replay events).Live id := by
  have hid : asI64 id = (id.val : Int) := asI64_of_lt (hs.numbered.lt h)
  rw [GrantLog.isLive, hid, hs.level.flagged id row h]
  exact decide_eq_true_iff.trans mem_liveIds

theorem live_before {m : GrantModel} {next j : GrantId} {row : GrantRow} (hlt : j < next) :
    (m.apply (.granted next row)).Live j ↔ m.Live j := by
  have hget : ∀ {k}, k < next → (m.apply (.granted next row)).grants.get? k = m.grants.get? k := by
    intro k hk
    show (m.grants.insertNew next row).get? k = _
    rw [Table.get?_insertNew, if_neg (ne_of_lt hk)]
  constructor
  · intro h
    induction h with
    | root hroot =>
      obtain ⟨r, hr, hrev, hop⟩ := hroot
      exact .root ⟨r, (hget hlt).symm.trans hr, hrev, hop⟩
    | carried hij _ hc ih =>
      obtain ⟨sup, r, agent, hsup, hr, hrest⟩ := hc
      have hi := lt_trans hij hlt
      exact .carried hij (ih hi) ⟨sup, r, agent, (hget hi).symm.trans hsup, (hget hlt).symm.trans hr, hrest⟩
  · exact Live.mono (fun k r hr => get?_apply_granted row hr) (Finset.Subset.refl _)

/-- A new delegation is live if its number is not revoked and a live grant supports it. -/
theorem live_appended {agent : String} {row : GrantRow} (hn : Numbered events) (hshort : events.length + 1 < 2 ^ 63)
    (hgrantor : row.grantor = .agent agent) :
    (GrantModel.replay (events ++ [.granted (nextId events) row])).Live (nextId events) ↔
      nextId events ∉ (replay events).revoked ∧ ∃ id sup, (replay events).grants.get? id = some sup ∧
        (replay events).Live id ∧ sup.grantee = .agent agent ∧ supports sup.verbs sup.scope row.verbs row.scope = true := by
  have hbefore : ∀ {id sup}, (replay events).grants.get? id = some sup → id < nextId events := by
    intro id sup hget
    have hb := hn.bounds (mem_of_get? hget)
    rw [Fin.lt_def, nextId_val hshort]
    omega
  have hnew : (replay events).grants.get? (nextId events) = none := by
    cases hget : (replay events).grants.get? (nextId events) with
    | none => rfl
    | some sup => exact absurd (hbefore hget) (lt_irrefl _)
  have hself : ((replay events).apply (.granted (nextId events) row)).grants.get? (nextId events) = some row := by
    show ((replay events).grants.insertNew _ row).get? _ = _
    rw [Table.get?_insertNew, if_pos rfl, hnew]
    rfl
  rw [replay_concat, GrantModel.Live, stands_iff]
  constructor
  · rintro (⟨r, hr, -, hop⟩ | ⟨j, hlt, hlive, sup, r, agent', hsup, hr, hrev, hagent, hgrantee, hs⟩)
    · cases hself.symm.trans hr
      cases hgrantor.symm.trans hop
    · cases hself.symm.trans hr
      cases hgrantor.symm.trans hagent
      have hsup' : (replay events).grants.get? j = some sup := by
        have hget : ((replay events).grants.insertNew (nextId events) row).get? j = some sup := hsup
        rwa [Table.get?_insertNew, if_neg (ne_of_lt hlt)] at hget
      exact ⟨hrev, j, sup, hsup', (live_before hlt).mp hlive, hgrantee, hs⟩
  · rintro ⟨hrev, j, sup, hsup, hlive, hgrantee, hs⟩
    have hlt := hbefore hsup
    exact .inr ⟨j, hlt, (live_before hlt).mpr hlive, sup, row, agent, get?_apply_granted row hsup, hself, hrev, hgrantor,
      hgrantee, hs⟩

end Granting

/-! ## Runs of the gate -/

namespace Gate

variable {Cid : Type}

inductive Operation where
  | grant (now : Int) (token : String) (grantee : Principal) (verbs : Finset Verb) (scope : Scope)
  | revoke (now : Int) (token : String) (id : GrantId)
  | operatorGrant (grantee : Principal) (verbs : Finset Verb) (scope : Scope)
  /-- also the command line's way to remove a grant -/
  | operatorRevoke (id : GrantId)
  | rebuild
  | reopen

def perform (gate : Gate Cid) : Operation → Gate Cid
  | .grant now token grantee verbs scope => (gate.grant now token grantee verbs scope).2
  | .revoke now token id => (gate.revoke now token id).2
  | .operatorGrant grantee verbs scope => (gate.operatorGrant grantee verbs scope).2
  | .operatorRevoke id => (gate.operatorRevoke id).2
  | .rebuild => { gate with grants := gate.grants.call gate.codec .rebuild }
  | .reopen => { gate with grants := gate.grants.call gate.codec .reopen }

/-- A gate in front of an empty log. -/
def opened (codec : VerbCodec) (verify : String → Except GateError VerifiedToken) (index : Store.Index Cid) : Gate Cid :=
  ⟨codec, verify, index, GrantLog.new⟩

theorem append_log (gate : Gate Cid) (row : GrantRow) :
    (gate.append row).2 = { gate with grants := gate.grants.call gate.codec (.granted row) } := by
  unfold append
  dsimp only [GrantLog.call]
  cases gate.grants.appendGranted gate.codec row with
  | error err => rfl
  | ok appended => rfl

theorem withdraw_log (gate : Gate Cid) (id : GrantId) :
    (gate.withdraw id).2 = { gate with grants := gate.grants.call gate.codec (.revoked id) } := by
  unfold withdraw
  dsimp only [GrantLog.call]
  cases gate.grants.appendRevoked gate.codec id with
  | error err => rfl
  | ok log => rfl

theorem issued_of_mayRevoke {gate : Gate Cid} {now : Int} {token : String} {id : GrantId}
    (h : gate.mayRevoke now token id = .ok ()) : (gate.grants.issuedGrant id).isSome = true := by
  cases hissued : gate.grants.issuedGrant id with
  | some grant => rfl
  | none =>
    unfold mayRevoke at h
    cases hv : gate.verify token with
    | error err =>
      rw [hv] at h
      cases h
    | ok verified =>
      simp only [bind, Except.bind, hv, hissued] at h
      split at h <;> cases h

/-- What an operation does to the log: nothing, or one call, and a call that revokes is about
a grant that the projection has. -/
inductive Does (gate : Gate Cid) : Gate Cid → Prop
  | nothing : Does gate gate
  | call {c : Call} (hrevoked : ∀ id, c = .revoked id → (gate.grants.issuedGrant id).isSome = true) :
      Does gate { gate with grants := gate.grants.call gate.codec c }

theorem Does.append (gate : Gate Cid) (row : GrantRow) : Does gate (gate.append row).2 := by
  rw [append_log]
  exact .call fun id h => by cases h

theorem Does.withdraw {gate : Gate Cid} {id : GrantId} (h : (gate.grants.issuedGrant id).isSome = true) :
    Does gate (gate.withdraw id).2 := by
  rw [withdraw_log]
  refine .call fun id' heq => ?_
  cases heq
  exact h

theorem perform_does (gate : Gate Cid) (op : Operation) : Does gate (gate.perform op) := by
  cases op with
  | grant now token grantee verbs scope =>
    dsimp only [perform, Gate.grant]
    split
    · exact .nothing
    · exact .append gate _
  | operatorGrant grantee verbs scope =>
    dsimp only [perform, operatorGrant]
    split
    · exact .append gate _
    · exact .nothing
  | revoke now token id =>
    dsimp only [perform, revoke]
    split
    · exact .nothing
    · next hmay => exact .withdraw (issued_of_mayRevoke hmay)
  | operatorRevoke id =>
    dsimp only [perform, operatorRevoke]
    split
    · exact .nothing
    · next hissued => exact .withdraw (by rw [hissued]; rfl)
  | rebuild => exact .call fun id h => by cases h
  | reopen => exact .call fun id h => by cases h

/-- Only grants that were given out have been revoked. -/
def RevokedIssued (events : List GrantEvent) : Prop := ∀ id, .revoked id ∈ events → ∃ row, .granted id row ∈ events

theorem RevokedIssued.logCall {codec : VerbCodec} {log : GrantLog} {events : List GrantEvent} {c : Call}
    (hs : InStep codec log events) (hi : RevokedIssued events)
    (hc : ∀ id, c = .revoked id → (log.issuedGrant id).isSome = true) : RevokedIssued (logCall events c) := by
  have hmono : ∀ {ev : GrantEvent}, (∀ id, ev = .revoked id → ∃ row, .granted id row ∈ events) →
      RevokedIssued (events ++ [ev]) := by
    intro ev hev id hid
    have hold : ∃ row, .granted id row ∈ events := by
      rcases List.mem_append.mp hid with hold | hnew
      · exact hi id hold
      · exact hev id (List.mem_singleton.mp hnew).symm
    exact hold.imp fun row h => List.mem_append_left _ h
  cases c with
  | granted grant =>
    dsimp only [Grants.logCall]
    split
    · exact hmono fun id h => by cases h
    · exact hi
  | revoked target =>
    dsimp only [Grants.logCall]
    split
    · refine hmono fun id h => ?_
      cases h
      have hissued := hc target rfl
      unfold GrantLog.issuedGrant at hissued
      rw [Option.isSome_map] at hissued
      obtain ⟨g, hg⟩ := Option.isSome_iff_exists.mp hissued
      obtain ⟨id, row, hev, hid⟩ := hs.level.sound _ g hg
      rw [← hs.numbered.asI64 hev] at hid
      rw [asI64_injective hid]
      exact ⟨row, hev⟩
    · exact hi
  | rebuild => exact hi
  | reopen => exact hi

/-- Every run leaves a log that is in step, with nothing revoked that was not given out. -/
theorem run_revokedIssued (codec : VerbCodec) (verify : String → Except GateError VerifiedToken)
    (index : Store.Index Cid) (ops : List Operation) :
    (ops.foldl perform (opened codec verify index)).codec = codec ∧
      ∃ events, InStep codec (ops.foldl perform (opened codec verify index)).grants events ∧ RevokedIssued events := by
  induction ops using List.reverseRecOn with
  | nil => exact ⟨rfl, [], inStep_new, fun id h => by cases h⟩
  | append_singleton ops op ih =>
    obtain ⟨hcodec, events, hs, hi⟩ := ih
    rw [List.foldl_append, List.foldl_cons, List.foldl_nil]
    generalize ops.foldl perform (opened codec verify index) = gate at hcodec hs ⊢
    subst hcodec
    have hdoes := gate.perform_does op
    generalize gate.perform op = gate' at hdoes ⊢
    cases hdoes with
    | nothing => exact ⟨rfl, events, hs, hi⟩
    | call hrevoked => exact ⟨rfl, _, call_inStep _ hs, hi.logCall hs hrevoked⟩

/-- A request that fails leaves the gate as it was. -/
theorem grant_refused {gate : Gate Cid} {now : Int} {token : String} {grantee : Principal} {verbs : Finset Verb}
    {scope : Scope} {err : GateError} (h : (gate.grant now token grantee verbs scope).1 = .error err) :
    (gate.grant now token grantee verbs scope).2 = gate := by
  unfold Gate.grant at h ⊢
  cases hmay : gate.mayGrant now token grantee verbs scope with
  | error err => rfl
  | ok principal =>
    rw [hmay] at h
    dsimp only [append] at h ⊢
    cases happ : gate.grants.appendGranted gate.codec ⟨.agent principal.column, grantee, verbs, scope⟩ with
    | error err => rfl
    | ok appended =>
      rw [happ] at h
      cases h

/-- A request that comes as far as the question of authority is decided by it. -/
theorem grant_of_authority {gate : Gate Cid} {now : Int} {token : String} {principal grantee : Principal}
    {verbs : Finset Verb} {scope : Scope} {authority : Bool}
    (hid : gate.identify now token .grant scope = .ok principal) (hvalid : grantee.hasValidId = true)
    (hauth : gate.grants.hasAuthority gate.codec principal verbs scope = .ok authority) :
    gate.grant now token grantee verbs scope =
      if authority then gate.append ⟨.agent principal.column, grantee, verbs, scope⟩
      else (.error (.denied (principal.column ++
        " holds no live grant covering the delegation (grant verb, superset verbs, covering scope)")), gate) := by
  have hmay : gate.mayGrant now token grantee verbs scope =
      if authority then .ok principal
      else .error (.denied (principal.column ++
        " holds no live grant covering the delegation (grant verb, superset verbs, covering scope)")) := by
    unfold mayGrant
    simp only [hid, hauth, hvalid, bind, Except.bind, Except.mapError, if_true]
    cases authority with
    | false => rfl
    | true => rfl
  unfold Gate.grant
  rw [hmay]
  cases authority with
  | false => rfl
  | true => rfl

end Gate

/-! ## What is let through is live -/

theorem appendGranted_ok {codec : VerbCodec} {log log' : GrantLog} {events : List GrantEvent} {row : GrantRow}
    {id : GrantId} (hs : InStep codec log events) (h : log.appendGranted codec row = .ok (log', id)) :
    events.length + 1 < 2 ^ 63 ∧ id = nextId events ∧ InStep codec log' (events ++ [.granted id row]) := by
  by_cases hshort : events.length + 1 < 2 ^ 63
  · obtain ⟨log'', hok, hin⟩ := appendGranted_inStep row hs hshort
    cases hok.symm.trans h
    exact ⟨hshort, rfl, hin⟩
  · rw [appendGranted_full row hs hshort] at h
    cases h

/-- The check and the projection agree, but for a number revoked in advance. -/
theorem authority_iff_live {codec : VerbCodec} {log log' : GrantLog} {events : List GrantEvent}
    {principal grantee : Principal} {verbs : Finset Verb} {scope : Scope} {id : GrantId} (hs : InStep codec log events)
    (happ : log.appendGranted codec ⟨.agent principal.column, grantee, verbs, scope⟩ = .ok (log', id)) :
    ∃ authority, log.hasAuthority codec principal verbs scope = .ok authority ∧
      (log'.isLive id = true ↔ authority = true ∧ id ∉ (replay events).revoked) := by
  obtain ⟨hshort, rfl, hs'⟩ := appendGranted_ok hs happ
  obtain ⟨authority, hok, hauth⟩ := hasAuthority_eq hs principal verbs scope
  refine ⟨authority, hok, ?_⟩
  rw [isLive_eq hs' (List.mem_append_right _ (List.mem_singleton_self _)),
    live_appended hs.numbered hshort rfl, hauth, Principal.agent_column, and_comm]

/-- In every history of the log, a delegation that is appended is live exactly if its issuer
has the authority and its number is not among the revoked ones already.  In every run of
the gate the number never is, so that the authority alone decides.  And a request that comes
as far as the question of authority is appended if the answer is yes; one that is refused,
there or before, appends nothing. -/
theorem delegation_will_be_live (Cid : Type) (codec : VerbCodec) :
    (∀ (calls : List Call) (principal grantee : Principal) (verbs : Finset Verb) (scope : Scope) (log : GrantLog)
      (id : GrantId), (GrantLog.run codec calls).appendGranted codec ⟨.agent principal.column, grantee, verbs, scope⟩ =
        .ok (log, id) →
      ∃ authority, (GrantLog.run codec calls).hasAuthority codec principal verbs scope = .ok authority ∧
        (log.isLive id = true ↔ authority = true ∧ asI64 id ∉ (GrantLog.run codec calls).revocations)) ∧
    (∀ (verify : String → Except GateError VerifiedToken) (index : Store.Index Cid) (ops : List Gate.Operation)
      (gate : Gate Cid), gate = ops.foldl Gate.perform (Gate.opened codec verify index) →
      ∀ (principal grantee : Principal) (verbs : Finset Verb) (scope : Scope) (log : GrantLog) (id : GrantId),
        gate.grants.appendGranted codec ⟨.agent principal.column, grantee, verbs, scope⟩ = .ok (log, id) →
        ∃ authority, gate.grants.hasAuthority codec principal verbs scope = .ok authority ∧
          (log.isLive id = true ↔ authority = true)) ∧
    ∀ (gate : Gate Cid) (now : Int) (token : String) (grantee : Principal) (verbs : Finset Verb) (scope : Scope),
      (∀ principal authority, gate.identify now token .grant scope = .ok principal → grantee.hasValidId = true →
        gate.grants.hasAuthority gate.codec principal verbs scope = .ok authority →
        gate.grant now token grantee verbs scope =
          if authority then gate.append ⟨.agent principal.column, grantee, verbs, scope⟩
          else (.error (.denied (principal.column ++
            " holds no live grant covering the delegation (grant verb, superset verbs, covering scope)")), gate)) ∧
      ∀ err, (gate.grant now token grantee verbs scope).1 = .error err →
        (gate.grant now token grantee verbs scope).2 = gate := by
  refine ⟨?_, ?_, ?_⟩
  · intro calls principal grantee verbs scope log id happ
    have hs := run_inStep codec calls
    obtain ⟨authority, hok, hlive⟩ := authority_iff_live hs happ
    refine ⟨authority, hok, hlive.trans (and_congr_right fun _ => not_congr ?_)⟩
    rw [mem_revoked, hs.level.revocations]
    constructor
    · exact fun h => ⟨id, h, rfl⟩
    · rintro ⟨id', h, heq⟩
      rwa [asI64_injective heq]
  · rintro verify index ops gate rfl principal grantee verbs scope log id happ
    obtain ⟨-, events, hs, hissued⟩ := Gate.run_revokedIssued codec verify index ops
    obtain ⟨authority, hok, hlive⟩ := authority_iff_live hs happ
    refine ⟨authority, hok, hlive.trans (and_iff_left ?_)⟩
    intro hrev
    -- a revoked number has been given out, and the next one has not
    obtain ⟨row, hrow⟩ := hissued id (mem_revoked.mp hrev)
    obtain ⟨hshort, rfl, -⟩ := appendGranted_ok hs happ
    have hb := (hs.numbered.bounds hrow).2
    rw [nextId_val hshort] at hb
    omega
  · intro gate now token grantee verbs scope
    exact ⟨fun _ _ hid hvalid hauth => Gate.grant_of_authority hid hvalid hauth, fun _ herr => Gate.grant_refused herr⟩

/-- Grant 1 lets alice read and delegate; number 3 is revoked before any grant has it. -/
def revokedInAdvance : GrantLog :=
  GrantLog.run jsonVerbs
    [.granted ⟨.operator, .agent "alice", {.read, .grant}, .nameSpace "research"⟩, .revoked 3]

/-- The log takes the revocation of a number that no grant has yet; the check does not look
at it, and the grant that gets the number is not live. -/
theorem revoked_in_advance_not_live :
    (revokedInAdvance.hasAuthority jsonVerbs (.agent "alice") {.read} (.name "research.papers")).toOption = some true ∧
      (revokedInAdvance.appendGranted jsonVerbs
        ⟨.agent "alice", .agent "bob", {.read}, .name "research.papers"⟩).toOption.map
        (fun appended => (appended.2, appended.1.isLive appended.2)) = some (3, false) := by
  decide +kernel

end FactorQ.Grants
