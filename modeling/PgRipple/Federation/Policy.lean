import PgRipple.Federation.Address

/-!
# The endpoint policy

Before a `SERVICE` call, the endpoint's URL is checked, its host is resolved, every address
is checked against a block list, and the URL is rewritten to the first address. Hosts and
addresses are compared as texts.

URLs are taken apart by hand: at the first `://`, at the next slash, at `@`, at brackets and
at colons.
-/

namespace PgRipple.Federation

open Dictionary (Text parseDigits trim)
open Split

/-- The digits after an optional plus sign. -/
def dropPlus : Text → Text
  | '+' :: ds => ds
  | ds => ds

/-- `str::parse` of an unsigned number below `bound`. -/
def parseUnsigned (bound : Nat) (s : Text) : Option Nat :=
  (parseDigits (dropPlus s)).filter (· < bound)

/-- The number before the first dot is in a range. -/
def firstOctetIn (low high : Nat) (s : Text) : Bool :=
  (parseUnsigned 256 (s.takeWhile (· ≠ '.'))).any fun n => low ≤ n && n ≤ high

/-- Every test of `is_blocked_host` but the last one. Lower case is taken of ASCII letters
only: no other letter has `c`, `d`, `e` or `f` as its lower case. -/
def isBlockedText (host : Text) : Bool :=
  let lower := host.map Char.toLower
  host == "localhost".toList || host == "127.0.0.1".toList || host == "::1".toList ||
    "127.".toList.isPrefixOf host || "169.254.".toList.isPrefixOf host ||
    "fe80".toList.isPrefixOf lower ||
    "fc".toList.isPrefixOf lower || "fd".toList.isPrefixOf lower ||
    "10.".toList.isPrefixOf host ||
    ("172.".toList.isPrefixOf? host).any (firstOctetIn 16 31) ||
    "192.168.".toList.isPrefixOf host ||
    ("100.".toList.isPrefixOf? host).any (firstOctetIn 64 127) ||
    firstOctetIn 224 239 host ||
    "0.".toList.isPrefixOf host

/-- `is_blocked_host`. -/
def isBlockedHost (host : Text) : Bool :=
  isBlockedText host ||
    match _h : "::ffff:".toList.isPrefixOf? (host.map Char.toLower) with
    | some ipv4Part => isBlockedHost ipv4Part
    | none => false
termination_by host.length
decreasing_by
  have same := congrArg List.length (isPrefixOf?_eq_some_iff.mp _h)
  rw [List.length_map, List.length_append] at same
  have seven : "::ffff:".toList.length = 7 := by decide
  omega

/-- The authority without user information. -/
def stripUserinfo (authority : Text) : Text :=
  match splitOnce ['@'] authority with
  | some (_, hostPort) => hostPort
  | none => authority

/-- `extract_host`. -/
def extractHost (url : Text) : Option Text := do
  let (_, afterScheme) ← splitOnce "://".toList url
  let hostPort := stripUserinfo (afterScheme.takeWhile (· ≠ '/'))
  if hostPort.head? = some '[' then
    (splitOnce [']'] hostPort).map fun (h, _) => h.dropWhile (· = '[')
  else
    let host := hostPort.takeWhile (· ≠ ':')
    if host = [] then none else some host

/-- `extract_port`. -/
def extractPort (url : Text) : Option Nat := do
  let (_, afterScheme) ← splitOnce "://".toList url
  let hostPort := stripUserinfo (afterScheme.takeWhile (· ≠ '/'))
  if hostPort.head? = some '[' then
    let (_, rest) ← splitOnce [']'] hostPort
    let port ← [':'].isPrefixOf? rest
    parseUnsigned 65536 port
  else
    let (_, port) ← splitOnce [':'] hostPort
    parseUnsigned 65536 port

/-- The authority, and the path with its slash. -/
def splitPath (afterScheme : Text) : Text × Text :=
  match splitOnce ['/'] afterScheme with
  | some (a, rest) => (a, '/' :: rest)
  | none => (afterScheme, [])

/-- `build_url_with_ip`. -/
def buildUrlWithIp (url ipStr : Text) (port : Nat) : Text :=
  match splitOnce "://".toList url with
  | none => url
  | some (scheme, afterScheme) =>
    let (authority, pathQuery) := splitPath afterScheme
    let defaultPort := if scheme = "https".toList then 443 else 80
    let ipInUrl :=
      if ':' ∈ ipStr then
        if port = defaultPort then '[' :: ipStr ++ [']']
        else '[' :: ipStr ++ ']' :: ':' :: decimal port
      else if ':' ∈ authority ∨ port ≠ defaultPort then ipStr ++ ':' :: decimal port
      else ipStr
    scheme ++ "://".toList ++ ipInUrl ++ pathQuery

/-- `federation_endpoint_policy` and `federation_allowed_endpoints`. -/
structure Settings where
  endpointPolicy : Option Text
  allowedEndpoints : Option Text

def Settings.policy (settings : Settings) : Text :=
  settings.endpointPolicy.getD "default-deny".toList

def blockedMessage (url : Text) : Text :=
  "PT606: SERVICE endpoint blocked by federation_endpoint_policy: ".toList ++ url

/-- `check_endpoint_policy`. -/
def checkEndpointPolicy (settings : Settings) (url : Text) : Except Text Unit :=
  if settings.policy = "open".toList then .ok ()
  else if settings.policy = "allowlist".toList then
    let entries := ((settings.allowedEndpoints.getD []).splitOn ',').map trim
    if (entries.filter (· ≠ [])).any (· = url) then .ok () else .error (blockedMessage url)
  else if "file://".toList.isPrefixOf url then .error (blockedMessage url)
  else if (extractHost url).any isBlockedHost then .error (blockedMessage url)
  else .ok ()

structure ResolvedEndpoint where
  connectUrl : Text
  hostHeader : Text
  deriving DecidableEq

/-- `to_socket_addrs`, which asks the resolver. -/
abbrev Resolver := Text → Except Text (List IpAddr)

/-- The default port of `resolve_and_check_endpoint`. -/
def portOf (url : Text) : Nat :=
  (extractPort url).getD (if "https://".toList.isPrefixOf url then 443 else 80)

/-- `resolve_and_check_endpoint`. -/
def resolveAndCheckEndpoint (settings : Settings) (toSocketAddrs : Resolver) (url : Text) :
    Except Text ResolvedEndpoint := do
  checkEndpointPolicy settings url
  if settings.policy = "open".toList then
    return ⟨url, (extractHost url).getD []⟩
  match extractHost url with
  | none => .error ("PT606: could not extract host from federation URL: ".toList ++ url)
  | some host =>
    let port := portOf url
    match toSocketAddrs (host ++ ':' :: decimal port) with
    | .error e =>
      .error ("PT606: DNS resolution failed for '".toList ++ host ++ "': ".toList ++ e)
    | .ok addrs =>
      match addrs with
      | [] =>
        .error ("PT606: DNS resolution returned no addresses for '".toList ++ host ++ ['\''])
      | ip :: _ =>
        match addrs.find? fun ip => isBlockedHost ip.text with
        | some blocked =>
          .error (blockedMessage ('\'' :: host ++ "' resolved to blocked address ".toList ++
            blocked.text))
        | none =>
          let hostHeader :=
            if port = 80 ∨ port = 443 then host else host ++ ':' :: decimal port
          .ok ⟨buildUrlWithIp url ip.text port, hostHeader⟩

end PgRipple.Federation
