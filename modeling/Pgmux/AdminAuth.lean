import Mathlib.Data.List.TakeWhile
import Pgmux.Literal
import Pgmux.Words

namespace Pgmux

def isAddressByte (c : UInt8) : Bool := isHexDigit c || c == ':'.toUInt8 || c == '.'.toUInt8

class Net where
  IP : Type
  IPNet : Type
  parseIP : Bytes → Option IP
  parseCIDR : Bytes → Option IPNet
  contains : IPNet → IP → Bool
  /-- The host of `SplitHostPort`. -/
  splitHostPort : Bytes → Option Bytes
  /-- An address has a text of digits, colons and dots. -/
  parseIP_text : parseIP s = some ip → s ≠ [] ∧ ∀ c ∈ s, isAddressByte c = true

structure AdminAPIKey where
  key : Bytes
  role : Bytes

structure AdminAuthConfig where
  enabled : Bool
  apiKeys : List AdminAPIKey
  ipAllowlist : List Bytes
  trustedProxies : List Bytes

/-- What the checks read of a request. A header that is not set is empty. -/
structure AdminRequest where
  remoteAddr : Bytes
  authorization : Bytes
  xForwardedFor : Bytes

inductive AuthOutcome where
  | next
  | jsonError (code : Nat) (message : Bytes) (wwwAuthenticate : Bool)
  deriving DecidableEq

def extractBearerToken (r : AdminRequest) : Bytes :=
  if hasPrefix r.authorization (ascii "Bearer ") then
    r.authorization.drop (ascii "Bearer ").length
  else []

/-- `strings.SplitN(s, ",", 2)[0]`. -/
def firstItem (s : Bytes) : Bytes := s.takeWhile (· ≠ ','.toUInt8)

def checkKey (cfg : AdminAuthConfig) (requireAdmin : Bool) (r : AdminRequest) : AuthOutcome :=
  let token := extractBearerToken r
  if token = [] then .jsonError 401 (ascii "authentication required") true
  else
    let role := ((cfg.apiKeys.find? fun k => k.key = token).map AdminAPIKey.role).getD []
    if role = [] then .jsonError 401 (ascii "invalid api key") false
    else if requireAdmin ∧ role ≠ ascii "admin" then
      .jsonError 403 (ascii "admin role required") false
    else .next

theorem checkKey_ne_denied (cfg : AdminAuthConfig) (requireAdmin : Bool) (r : AdminRequest) :
    checkKey cfg requireAdmin r ≠ .jsonError 403 (ascii "ip not allowed") false := by
  have hrole : ascii "admin role required" ≠ ascii "ip not allowed" := by decide
  unfold checkKey
  dsimp only
  split
  · simp
  · split
    · simp
    · split <;> simp [hrole]

theorem solid_of_isAddressByte (h : isAddressByte c) : solid c := by
  have hall : ∀ c, isAddressByte c → solid c := forall_byte (by decide +kernel)
  exact hall c h

/-- A proxy adds the address of its peer to the value of the header that it got. -/
def addPeer (header : Option Bytes) (peer : Bytes) : Bytes :=
  match header with
  | none => peer
  | some value => value ++ ascii ", " ++ peer

/-- The header behind one proxy or more; `hops` are the peers of the later ones. -/
def forwardedFor (header : Option Bytes) (peer : Bytes) (hops : List Bytes) : Bytes :=
  hops.foldl (fun value hop => addPeer (some value) hop) (addPeer header peer)

theorem firstItem_addPeer (value peer : Bytes) :
    firstItem (addPeer (some value) peer) = firstItem value := by
  rw [addPeer, List.append_assoc]
  induction value with
  | nil => rfl
  | cons c value ih =>
    rw [List.cons_append, firstItem, firstItem, List.takeWhile_cons, List.takeWhile_cons]
    split
    · exact congrArg (c :: ·) ih
    · rfl

theorem firstItem_forwardedFor (header : Option Bytes) (peer : Bytes) (hops : List Bytes) :
    firstItem (forwardedFor header peer hops) = firstItem (addPeer header peer) := by
  unfold forwardedFor
  generalize addPeer header peer = value
  induction hops generalizing value with
  | nil => rfl
  | cons hop hops ih => rw [List.foldl_cons, ih, firstItem_addPeer]

theorem forwardedFor_ne_nil (hpeer : peer ≠ []) (header : Option Bytes) (hops : List Bytes) :
    forwardedFor header peer hops ≠ [] := by
  have hvalue : addPeer header peer ≠ [] := by
    cases header with
    | none => exact hpeer
    | some value => exact fun h => hpeer (List.append_eq_nil_iff.mp h).2
  unfold forwardedFor
  generalize addPeer header peer = value at hvalue ⊢
  induction hops generalizing value with
  | nil => exact hvalue
  | cons hop hops ih =>
    apply ih
    simp [addPeer, hvalue]

section Checks

variable [Net]

def listed (text : Bytes) (ip : Net.IP) : List Bytes → Bool
  | [] => false
  | entry :: entries =>
    match Net.parseCIDR entry with
    | some cidr => if Net.contains cidr ip then true else listed text ip entries
    | none =>
      if (Net.parseIP entry).isSome ∧ entry = text then true else listed text ip entries

def listedAddress (text : Bytes) (entries : List Bytes) : Bool :=
  match Net.parseIP text with
  | none => false
  | some ip => listed text ip entries

def isTrustedProxy (ip : Bytes) (trustedProxies : List Bytes) : Bool :=
  listedAddress ip trustedProxies

def isIPAllowed (clientIP : Bytes) (allowlist : List Bytes) : Bool :=
  listedAddress clientIP allowlist

def remoteIP (remoteAddr : Bytes) : Bytes := (Net.splitHostPort remoteAddr).getD remoteAddr

def extractClientIP (r : AdminRequest) (trustedProxies : List Bytes) : Bytes :=
  if trustedProxies ≠ [] ∧ isTrustedProxy (remoteIP r.remoteAddr) trustedProxies ∧
      r.xForwardedFor ≠ [] then
    trimSpace (firstItem r.xForwardedFor)
  else remoteIP r.remoteAddr

def withAuth (cfg : AdminAuthConfig) (requireAdmin : Bool) (r : AdminRequest) : AuthOutcome :=
  if !cfg.enabled then .next
  else if cfg.ipAllowlist ≠ [] ∧ !isIPAllowed (extractClientIP r cfg.trustedProxies) cfg.ipAllowlist
    then .jsonError 403 (ascii "ip not allowed") false
  else checkKey cfg requireAdmin r

def deniesIP (cfg : AdminAuthConfig) (requireAdmin : Bool) (r : AdminRequest) : Bool :=
  withAuth cfg requireAdmin r = .jsonError 403 (ascii "ip not allowed") false

theorem deniesIP_eq {cfg : AdminAuthConfig} (henabled : cfg.enabled)
    (hlist : cfg.ipAllowlist ≠ []) (requireAdmin : Bool) (r : AdminRequest) :
    deniesIP cfg requireAdmin r =
      !isIPAllowed (extractClientIP r cfg.trustedProxies) cfg.ipAllowlist := by
  unfold deniesIP withAuth
  rw [henabled]
  cases h : isIPAllowed (extractClientIP r cfg.trustedProxies) cfg.ipAllowlist with
  | true => simp [checkKey_ne_denied]
  | false => simp [hlist]

theorem trimSpace_firstItem_address (h : (Net.parseIP a).isSome = true) :
    trimSpace (firstItem a) = a := by
  obtain ⟨ip, hip⟩ := Option.isSome_iff_exists.mp h
  have hbyte := (Net.parseIP_text hip).2
  have hitem : firstItem a = a := by
    rw [firstItem, List.takeWhile_eq_self_iff]
    intro c hc
    apply decide_eq_true
    rintro rfl
    exact absurd (hbyte _ hc) (by decide)
  rw [hitem]
  exact trimSpace_solid fun c hc => solid_of_isAddressByte (hbyte c hc)

theorem isSome_of_isIPAllowed (h : isIPAllowed s allowlist) :
    (Net.parseIP s).isSome = true := by
  unfold isIPAllowed listedAddress at h
  cases hip : Net.parseIP s with
  | none => rw [hip] at h; cases h
  | some ip => rfl

theorem isIPAllowed_nil (allowlist : List Bytes) : isIPAllowed [] allowlist = false := by
  rw [← Bool.not_eq_true]
  intro h
  obtain ⟨ip, hip⟩ := Option.isSome_iff_exists.mp (isSome_of_isIPAllowed h)
  exact (Net.parseIP_text hip).1 rfl

theorem extractClientIP_forwarded {trustedProxies : List Bytes}
    (hproxy : isTrustedProxy (remoteIP remoteAddr) trustedProxies)
    (hheader : header ≠ []) (auth : Bytes) :
    extractClientIP ⟨remoteAddr, auth, header⟩ trustedProxies = trimSpace (firstItem header) := by
  have hsome : trustedProxies ≠ [] := by
    rintro rfl
    unfold isTrustedProxy listedAddress at hproxy
    cases hip : Net.parseIP (remoteIP remoteAddr) with
    | none => rw [hip] at hproxy; cases hproxy
    | some ip => rw [hip] at hproxy; cases hproxy
  exact if_pos ⟨hsome, hproxy, hheader⟩

/-- Behind proxies that add their peers to the header, the first item of the client's own value is
checked, so that the value makes no difference only if no address is allowed. -/
theorem forwarded_check (cfg : AdminAuthConfig) (henabled : cfg.enabled = true)
    (hlist : cfg.ipAllowlist ≠ [])
    (hproxy : isTrustedProxy (remoteIP remoteAddr) cfg.trustedProxies = true)
    (hpeer : (Net.parseIP a).isSome = true) (hops : List Bytes) (auth : Bytes)
    (requireAdmin : Bool) :
    let denied (header : Option Bytes) :=
      deniesIP cfg requireAdmin ⟨remoteAddr, auth, forwardedFor header a hops⟩
    denied none = !isIPAllowed a cfg.ipAllowlist ∧
    (∀ value, denied (some value) = !isIPAllowed (trimSpace (firstItem value)) cfg.ipAllowlist) ∧
    ((∀ h₁ h₂, denied h₁ = denied h₂ ∧ denied h₁ = !isIPAllowed a cfg.ipAllowlist) ↔
      ∀ s, isIPAllowed s cfg.ipAllowlist = false) := by
  intro denied
  have hdenied (header : Option Bytes) : denied header =
      !isIPAllowed (trimSpace (firstItem (addPeer header a))) cfg.ipAllowlist := by
    show deniesIP _ _ _ = _
    obtain ⟨ip, hip⟩ := Option.isSome_iff_exists.mp hpeer
    rw [deniesIP_eq henabled hlist, extractClientIP_forwarded hproxy
      (forwardedFor_ne_nil (Net.parseIP_text hip).1 header hops), firstItem_forwardedFor]
  have hnone : denied none = !isIPAllowed a cfg.ipAllowlist := by
    rw [hdenied, addPeer, trimSpace_firstItem_address hpeer]
  have hvalue (value : Bytes) :
      denied (some value) = !isIPAllowed (trimSpace (firstItem value)) cfg.ipAllowlist := by
    rw [hdenied, firstItem_addPeer]
  refine ⟨hnone, hvalue, ?_, ?_⟩
  · intro h s
    rw [← Bool.not_eq_true]
    intro hs
    -- The client claims to be the allowed address, or to be nobody.
    have hclaim := hvalue s
    have hempty := hvalue []
    rw [trimSpace_firstItem_address (isSome_of_isIPAllowed hs), hs] at hclaim
    rw [(h (some s) (some [])).1, hempty] at hclaim
    have hblank : isIPAllowed (trimSpace (firstItem [])) cfg.ipAllowlist = false :=
      isIPAllowed_nil cfg.ipAllowlist
    rw [hblank] at hclaim
    cases hclaim
  · intro h h₁ h₂
    rw [hdenied, hdenied, h, h, h]
    exact ⟨rfl, rfl⟩

end Checks

def dotted (s : Bytes) : List Nat :=
  (s.splitOn '.'.toUInt8).map fun field => field.foldl (fun n c => 10 * n + (c.toNat - 48)) 0

@[reducible] def ipv4 : Net where
  IP := Nat
  IPNet := Nat × Nat
  parseIP s :=
    if s ≠ [] ∧ (∀ c ∈ s, isDigit c ∨ c = '.'.toUInt8) ∧ (dotted s).length = 4 ∧
      ∀ n ∈ dotted s, n < 256 then some ((dotted s).foldl (fun a n => 256 * a + n) 0) else none
  parseCIDR s := match s.splitOn '/'.toUInt8 with
    | [address, bits] => some ((dotted address).foldl (fun a n => 256 * a + n) 0,
        bits.foldl (fun n c => 10 * n + (c.toNat - 48)) 0)
    | _ => none
  contains network ip :=
    ip / 2 ^ (32 - network.2) = network.1 / 2 ^ (32 - network.2)
  splitHostPort s := some (s.takeWhile (· ≠ ':'.toUInt8))
  parseIP_text := by
    intro s ip h
    rw [Option.ite_none_right_eq_some] at h
    refine ⟨h.1.1, fun c hc => ?_⟩
    rcases h.1.2.1 c hc with hd | rfl
    · simp [isAddressByte, isHexDigit, hd]
    · rfl

def proxiedConfig : AdminAuthConfig where
  enabled := true
  apiKeys := [⟨ascii "key", ascii "admin"⟩]
  ipAllowlist := [ascii "10.0.0.0/8"]
  trustedProxies := [ascii "192.0.2.1"]

theorem forwarded_check_ipv4 : ∃ _ : Net,
    (∀ value, deniesIP proxiedConfig true ⟨ascii "192.0.2.1:4711", ascii "Bearer key",
        forwardedFor (some value) (ascii "203.0.113.7") []⟩ =
      !isIPAllowed (trimSpace (firstItem value)) proxiedConfig.ipAllowlist) ∧
    ∃ s, isIPAllowed s proxiedConfig.ipAllowlist = true := by
  let _ := ipv4
  have hproxy : isTrustedProxy (remoteIP (ascii "192.0.2.1:4711")) proxiedConfig.trustedProxies =
      true := by decide +kernel
  have hpeer : (Net.parseIP (ascii "203.0.113.7")).isSome = true := by decide +kernel
  refine ⟨ipv4, ?_, ascii "10.1.2.3", by decide +kernel⟩
  exact (forwarded_check proxiedConfig rfl (by decide) hproxy hpeer [] _ true).2.1

/-- A client from outside passes with a header of its own. -/
theorem claimed_address_passes : ∃ _ : Net,
    isIPAllowed (ascii "203.0.113.7") proxiedConfig.ipAllowlist = false ∧
    isTrustedProxy (ascii "203.0.113.7") proxiedConfig.trustedProxies = false ∧
    withAuth proxiedConfig true ⟨ascii "192.0.2.1:4711", ascii "Bearer key",
      forwardedFor none (ascii "203.0.113.7") []⟩ =
        .jsonError 403 (ascii "ip not allowed") false ∧
    withAuth proxiedConfig true ⟨ascii "192.0.2.1:4711", ascii "Bearer key",
      forwardedFor (some (ascii "10.1.2.3")) (ascii "203.0.113.7") []⟩ = .next := by
  let _ := ipv4
  exact ⟨ipv4, by decide +kernel⟩

end Pgmux
