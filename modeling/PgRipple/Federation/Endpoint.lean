import PgRipple.Federation.BlockList

/-!
# Where an accepted endpoint connects to

The URL that `resolve_and_check_endpoint` returns is handed to the HTTP client, which reads
it by the generic syntax of URLs. It leads to a checked address if the text before the first
`://` is a scheme. A text such as `http:/h?x://example.com` has another meaning there: the
checks see `example.com`, and the rewritten URL has no authority.

Schemes are read without regard to case, except by `build_url_with_ip`. In front of an IPv6
address it leaves out a port that it takes for the default one, and `HTTPS://example.com:80/`
loses the `80`.
-/

namespace PgRipple.Federation

open Dictionary (Text)
open Split

/-- The characters that end a scheme. -/
def endsScheme (c : Char) : Bool := c ∈ ":/?#".toList

/-- The characters that end an authority. -/
def endsAuthority (c : Char) : Bool := c ∈ "/?#".toList

/-- The text in front of the first character that ends a scheme. -/
def schemeOf (url : Text) : Text := url.takeWhile fun c => !endsScheme c

/-- The authority of a URL with a scheme. -/
def authorityOf (url : Text) : Option Text :=
  let scheme := schemeOf url
  if scheme = [] then none
  else ("://".toList.isPrefixOf? (url.drop scheme.length)).map fun rest =>
    rest.takeWhile fun c => !endsAuthority c

/-- The port that a client uses if the authority has none. -/
def defaultPort (scheme : Text) : Option Nat :=
  let lower := scheme.map Char.toLower
  if lower = "https".toList then some 443 else if lower = "http".toList then some 80 else none

/-- The text before `://` is a scheme. -/
def IsScheme (scheme : Text) : Prop := scheme ≠ [] ∧ ∀ c ∈ scheme, endsScheme c = false

section Authority

variable {scheme a b p after : Text}

theorem takeWhile_append_of_free {f : Char → Bool} (free : ∀ c ∈ a, f c = true)
    (stops : b = [] ∨ ∃ c r, b = c :: r ∧ f c = false) : (a ++ b).takeWhile f = a := by
  rw [List.takeWhile_append_of_pos free]
  obtain rfl | ⟨c, r, rfl, no⟩ := stops
  · rw [List.takeWhile_nil, List.append_nil]
  · rw [List.takeWhile_cons_of_neg (by rw [no]; decide), List.append_nil]

theorem schemeOf_of_isScheme (proper : IsScheme scheme) :
    schemeOf (scheme ++ "://".toList ++ a ++ p) = scheme := by
  rw [schemeOf, List.append_assoc, List.append_assoc]
  refine takeWhile_append_of_free ?_ (.inr ⟨':', _, rfl, by decide⟩)
  intro c hc
  rw [proper.2 c hc]
  rfl

theorem authorityOf_of_isScheme (proper : IsScheme scheme)
    (free : ∀ c ∈ a, endsAuthority c = false) (path : p = [] ∨ ∃ r, p = '/' :: r) :
    authorityOf (scheme ++ "://".toList ++ a ++ p) = some a := by
  have first : schemeOf (scheme ++ "://".toList ++ a ++ p) = scheme :=
    schemeOf_of_isScheme proper
  have dropped : (scheme ++ "://".toList ++ a ++ p).drop scheme.length =
      "://".toList ++ (a ++ p) := by
    rw [List.append_assoc, List.append_assoc, List.drop_left]
  have stripped : "://".toList.isPrefixOf? ("://".toList ++ (a ++ p)) = some (a ++ p) :=
    isPrefixOf?_eq_some_iff.mpr rfl
  rw [authorityOf]
  simp only [first, proper.1, if_false, dropped, stripped, Option.map_some]
  refine congrArg some (takeWhile_append_of_free ?_ ?_)
  · intro c hc
    rw [free c hc]
    rfl
  · obtain empty | ⟨r, rfl⟩ := path
    · exact .inl empty
    · exact .inr ⟨'/', r, rfl, by decide⟩

/-- Cutting at the first `://` does not make a scheme of the text before it. -/
theorem authorityOf_of_not_isScheme (h : splitOnce "://".toList (scheme ++ "://".toList ++ after) =
    some (scheme, after)) (improper : ¬ IsScheme scheme) :
    authorityOf (scheme ++ "://".toList ++ b) = none := by
  rw [authorityOf]
  split
  · rfl
  · rename_i nonempty
    rw [Option.map_eq_none_iff, isPrefixOf?_eq_none_iff]
    -- the scheme ends inside the text before the first separator
    have delimiter : ∃ c ∈ scheme, endsScheme c = true := by
      by_contra none
      refine improper ⟨?_, ?_⟩
      · rintro rfl
        exact nonempty rfl
      · intro c hc
        rw [← Bool.not_eq_true]
        exact fun ends => none ⟨c, hc, ends⟩
    obtain ⟨front, c, back, rfl, free, ends⟩ :
        ∃ front c back, scheme = front ++ c :: back ∧ (∀ d ∈ front, endsScheme d = false) ∧
          endsScheme c = true := by
      obtain ⟨c, found⟩ := Option.isSome_iff_exists.mp (List.find?_isSome.mpr delimiter)
      obtain ⟨ends, front, back, same, free⟩ := List.find?_eq_some_iff_append.mp found
      exact ⟨front, c, back, same, fun d hd => by simpa using free d hd, ends⟩
    have cut : schemeOf (front ++ c :: back ++ "://".toList ++ b) = front := by
      rw [schemeOf, List.append_assoc, List.append_assoc]
      refine takeWhile_append_of_free ?_ (.inr ⟨c, _, rfl, by rw [ends]; rfl⟩)
      intro d hd
      rw [free d hd]
      rfl
    rw [cut, List.append_assoc, List.append_assoc, List.drop_left]
    intro begins
    rw [List.append_assoc, List.append_assoc] at h
    refine not_prefix_of_splitOnce h (by simp) (List.cons_ne_nil c back) ?_
    rw [← List.append_assoc] at begins ⊢
    have short := List.prefix_of_prefix_length_le begins (List.prefix_append _ b) (by simp)
    exact short.trans (List.prefix_append _ after)

end Authority

/-- An address as the host of a URL. -/
def IpAddr.hostText : IpAddr → Text
  | .v4 x => x.text
  | .v6 x => '[' :: x.text ++ [']']

/-- The authority is the address with the port. It may be left out where the URL has none or
the client uses it anyway. -/
def LeadsTo (url connectUrl : Text) (ip : IpAddr) : Prop :=
  authorityOf connectUrl = some (ip.hostText ++ ':' :: decimal (portOf url)) ∨
    (authorityOf connectUrl = some ip.hostText ∧
      ∀ port, extractPort url = some port → defaultPort (schemeOf connectUrl) = some port)

/-- The endpoint is one of the addresses that the host was resolved to and that passed the
checks. -/
def ConnectsToChecked (toSocketAddrs : Resolver) (url : Text)
    (endpoint : ResolvedEndpoint) : Prop :=
  ∃ host addrs, extractHost url = some host ∧
    toSocketAddrs (host ++ ':' :: decimal (portOf url)) = .ok addrs ∧
    (∀ ip ∈ addrs, isBlockedHost ip.text = false) ∧
    ∃ ip ∈ addrs, LeadsTo url endpoint.connectUrl ip

/-- The text before the first `://` is a scheme. -/
def HasScheme (url : Text) : Prop :=
  ∃ scheme after, splitOnce "://".toList url = some (scheme, after) ∧ IsScheme scheme

/-- The `default_port` of `build_url_with_ip`. -/
def assumedPort (scheme : Text) : Nat := if scheme = "https".toList then 443 else 80

/-- An IPv6 address in front of a port that only `build_url_with_ip` takes for the default of
the scheme. -/
def LosesPort (url : Text) (ip : IpAddr) : Prop :=
  (∃ x, ip = .v6 x) ∧ ∃ scheme after, splitOnce "://".toList url = some (scheme, after) ∧
    extractPort url = some (assumedPort scheme) ∧ defaultPort scheme ≠ some (assumedPort scheme)

section Rewritten

variable {url scheme after : Text} {ip : IpAddr} {port : Nat}

theorem colon_mem_text_iff (ip : IpAddr) : ':' ∈ ip.text ↔ ∃ x, ip = .v6 x := by
  cases ip with
  | v4 x =>
    have none : ':' ∉ x.text := by
      simp only [Ipv4Addr.text, List.mem_append, List.mem_cons, not_or]
      have free (n : Nat) : ':' ∉ decimal n := notMem_decimal (by decide)
      exact ⟨free _, by decide, free _, by decide, free _, by decide, free _⟩
    simp [IpAddr.text, none]
  | v6 x =>
    have some : ':' ∈ x.text := by
      cases mapped : x.toIpv4Mapped with
      | some y =>
        rw [Ipv6Addr.text, mapped]
        exact List.mem_append_left _ (by decide)
      | none =>
        obtain ⟨n, s₁, s₂, s₃, s₄, s₅, s₆, s₇, segments⟩ := x.exists_segments
        obtain ⟨-, r, text⟩ | ⟨-, -, -, text⟩ := Ipv6Addr.text_of_not_mapped mapped segments
        · rw [text]
          simp
        · rw [text]
          exact List.mem_cons_self
    simp [IpAddr.text, some]

theorem isAddressChar_ip (ip : IpAddr) {c : Char} (h : c ∈ ip.text) : isAddressChar c = true := by
  cases ip with
  | v4 x => exact Ipv4Addr.isAddressChar_text h
  | v6 x =>
    cases mapped : x.toIpv4Mapped with
    | some y =>
      rw [IpAddr.text, Ipv6Addr.text, mapped] at h
      exact Ipv6Addr.isAddressChar_mapped y c h
    | none => exact (Ipv6Addr.isSegmentText_text mapped).isAddressChar c h

theorem endsAuthority_of_isAddressChar {c : Char} (h : isAddressChar c = true) :
    endsAuthority c = false := by
  rw [← Bool.not_eq_true]
  intro ends
  have all : ("/?#".toList.all fun c => !isAddressChar c) = true := by decide
  rw [endsAuthority, decide_eq_true_iff] at ends
  have other := List.all_eq_true.mp all c ends
  rw [h] at other
  cases other

theorem endsAuthority_hostText {c : Char} (h : c ∈ ip.hostText) : endsAuthority c = false := by
  cases ip with
  | v4 x => exact endsAuthority_of_isAddressChar (isAddressChar_ip (.v4 x) h)
  | v6 x =>
    simp only [IpAddr.hostText, List.mem_append, List.mem_cons, List.not_mem_nil, or_false] at h
    obtain (rfl | inside) | rfl := h
    · decide
    · exact endsAuthority_of_isAddressChar (isAddressChar_ip (.v6 x) inside)
    · decide

/-- What `build_url_with_ip` puts in the place of an authority. -/
def hostOf (scheme authority : Text) (ip : IpAddr) (port : Nat) : Text :=
  if (':' ∈ ip.text ∨ ':' ∉ authority) ∧ port = assumedPort scheme then ip.hostText
  else ip.hostText ++ ':' :: decimal port

theorem buildUrlWithIp_eq (ip : IpAddr) (port : Nat)
    (h : splitOnce "://".toList url = some (scheme, after)) :
    ∃ path, (path = [] ∨ ∃ r, path = '/' :: r) ∧ buildUrlWithIp url ip.text port =
      scheme ++ "://".toList ++ hostOf scheme (splitPath after).1 ip port ++ path := by
  have path : (splitPath after).2 = [] ∨ ∃ r, (splitPath after).2 = '/' :: r := by
    rw [splitPath]
    split
    · exact .inr ⟨_, rfl⟩
    · exact .inl rfl
  refine ⟨_, path, ?_⟩
  have assumed : (if scheme = "https".toList then 443 else 80) = assumedPort scheme := rfl
  rw [buildUrlWithIp, h, hostOf]
  simp only
  rw [assumed]
  by_cases colon : ':' ∈ ip.text
  · obtain ⟨x, rfl⟩ := (colon_mem_text_iff ip).mp colon
    rw [if_pos colon]
    by_cases same : port = assumedPort scheme
    · rw [if_pos same, if_pos ⟨.inl colon, same⟩]
      rfl
    · rw [if_neg same, if_neg fun both => same both.2]
      simp [IpAddr.hostText, IpAddr.text]
  · have v4 : ip.hostText = ip.text := by
      cases ip with
      | v4 x => rfl
      | v6 x => exact absurd ((colon_mem_text_iff _).mpr ⟨x, rfl⟩) colon
    rw [if_neg colon, v4]
    by_cases explicit : ':' ∈ (splitPath after).1
    · simp [colon, explicit]
    · by_cases same : port = assumedPort scheme
      · simp [explicit, same]
      · simp [same]

/-- Without a scheme, the rewritten URL has no authority. -/
theorem isScheme_of_leadsTo {ip' : IpAddr}
    (h : splitOnce "://".toList url = some (scheme, after))
    (leads : LeadsTo url (buildUrlWithIp url ip.text port) ip') : IsScheme scheme := by
  obtain ⟨path, -, same⟩ := buildUrlWithIp_eq ip port h
  by_contra improper
  have cut : splitOnce "://".toList (scheme ++ "://".toList ++ after) = some (scheme, after) := by
    rw [← eq_of_splitOnce h]
    exact h
  have none : authorityOf (scheme ++ "://".toList ++
      (hostOf scheme (splitPath after).1 ip port ++ path)) = none :=
    authorityOf_of_not_isScheme cut improper
  rw [LeadsTo, same, List.append_assoc, none] at leads
  obtain leads | ⟨leads, -⟩ := leads
  · cases leads
  · cases leads

theorem endsAuthority_hostOf {authority : Text} {c : Char}
    (h : c ∈ hostOf scheme authority ip port) : endsAuthority c = false := by
  rw [hostOf] at h
  split at h
  · exact endsAuthority_hostText h
  · rw [List.mem_append, List.mem_cons] at h
    obtain address | rfl | digit := h
    · exact endsAuthority_hostText address
    · decide
    · exact endsAuthority_of_isAddressChar (isAddressChar_decimal digit)

/-- What a client makes of the rewritten URL. -/
theorem leadsTo_iff {ip' : IpAddr} (h : splitOnce "://".toList url = some (scheme, after))
    (proper : IsScheme scheme) : LeadsTo url (buildUrlWithIp url ip.text port) ip' ↔
      hostOf scheme (splitPath after).1 ip port = ip'.hostText ++ ':' :: decimal (portOf url) ∨
        (hostOf scheme (splitPath after).1 ip port = ip'.hostText ∧
          ∀ port, extractPort url = some port → defaultPort scheme = some port) := by
  obtain ⟨path, slash, same⟩ := buildUrlWithIp_eq ip port h
  rw [LeadsTo, same, authorityOf_of_isScheme proper (fun _ hc => endsAuthority_hostOf hc) slash,
    schemeOf_of_isScheme proper, Option.some_inj, Option.some_inj]

/-- The port that is found is written in the authority. -/
theorem colon_mem_of_extractPort (h : splitOnce "://".toList url = some (scheme, after))
    (found : extractPort url = some port) : ':' ∈ (splitPath after).1 := by
  have inside : ':' ∈ stripUserinfo (after.takeWhile (· ≠ '/')) := by
    simp only [extractPort, h, Option.bind_eq_bind, Option.bind_some] at found
    split at found
    · obtain ⟨⟨_, rest⟩, cut, found⟩ := Option.bind_eq_some_iff.mp found
      obtain ⟨text, begins, -⟩ := Option.bind_eq_some_iff.mp found
      have tail : rest = [':'] ++ text := isPrefixOf?_eq_some_iff.mp begins
      rw [eq_of_splitOnce cut, tail]
      simp
    · obtain ⟨⟨_, text⟩, cut, -⟩ := Option.bind_eq_some_iff.mp found
      rw [eq_of_splitOnce cut]
      simp
  have authority : ':' ∈ after.takeWhile (· ≠ '/') := by
    rw [stripUserinfo] at inside
    split at inside
    · rename_i cut
      rw [eq_of_splitOnce cut]
      exact List.mem_append_right _ inside
    · exact inside
  rw [splitPath]
  split
  · rename_i front back cut
    rw [eq_of_splitOnce cut, List.append_assoc] at authority
    by_contra outside
    have shorter : (front ++ (['/'] ++ back)).takeWhile (· ≠ '/') <+: front := by
      rw [List.takeWhile_append]
      split
      · simp
      · exact List.takeWhile_prefix _
    exact outside (shorter.subset authority)
  · exact (List.takeWhile_prefix _).subset authority

/-- An address text does not end like a port. -/
theorem hostText_ne_append_port {ip ip' : IpAddr} (v6 : ∃ x, ip = .v6 x) :
    ip.hostText ≠ ip'.hostText ++ ':' :: decimal port := by
  obtain ⟨x, rfl⟩ := v6
  intro same
  have bracket : (IpAddr.v6 x).hostText = '[' :: x.text ++ [']'] := rfl
  have last := congrArg List.getLast? (bracket.symm.trans same)
  rw [List.getLast?_append, List.getLast?_append] at last
  obtain ⟨c, here⟩ : ∃ c, (':' :: decimal port).getLast? = some c :=
    ⟨_, List.getLast?_eq_some_getLast (List.cons_ne_nil _ _)⟩
  rw [here] at last
  have same' : ']' = c := Option.some.inj last
  obtain other | digit := List.mem_cons.mp (List.mem_of_getLast? here)
  · rw [other] at same'
    exact absurd same' (by decide)
  · rw [← same'] at digit
    exact notMem_decimal (by decide) digit

theorem not_leadsTo_of_losesPort {ip' : IpAddr}
    (h : splitOnce "://".toList url = some (scheme, after)) (proper : IsScheme scheme)
    (loses : LosesPort url ip) : ¬ LeadsTo url (buildUrlWithIp url ip.text (portOf url)) ip' := by
  obtain ⟨v6, scheme', after', h', found, other⟩ := loses
  rw [h] at h'
  cases h'
  have port : portOf url = assumedPort scheme := by rw [portOf, found, Option.getD_some]
  have bare : hostOf scheme (splitPath after).1 ip (portOf url) = ip.hostText := by
    rw [hostOf, if_pos ⟨.inl ((colon_mem_text_iff ip).mpr v6), port⟩]
  rw [leadsTo_iff h proper, bare]
  rintro (same | ⟨-, default⟩)
  · exact hostText_ne_append_port v6 same
  · exact other (default _ found)

theorem leadsTo_of_keepsPort (h : splitOnce "://".toList url = some (scheme, after))
    (proper : IsScheme scheme) (keeps : ¬ LosesPort url ip) :
    LeadsTo url (buildUrlWithIp url ip.text (portOf url)) ip := by
  rw [leadsTo_iff h proper, hostOf]
  split
  · rename_i bare
    refine .inr ⟨rfl, fun port found => ?_⟩
    have written := colon_mem_of_extractPort h found
    have same : port = assumedPort scheme := by
      rw [← bare.2, portOf, found, Option.getD_some]
    subst same
    by_contra other
    have v6 := (colon_mem_text_iff ip).mp (bare.1.resolve_right fun none => none written)
    exact keeps ⟨v6, scheme, after, h, found, other⟩
  · exact .inl rfl

end Rewritten

/-- What is known of an accepted endpoint. -/
theorem resolveAndCheckEndpoint_ok {settings : Settings} {toSocketAddrs : Resolver} {url : Text}
    {endpoint : ResolvedEndpoint} (outside : settings.policy ≠ "open".toList)
    (accepted : resolveAndCheckEndpoint settings toSocketAddrs url = .ok endpoint) :
    ∃ host ip addrs, extractHost url = some host ∧
      toSocketAddrs (host ++ ':' :: decimal (portOf url)) = .ok (ip :: addrs) ∧
      (∀ ip' ∈ ip :: addrs, isBlockedHost ip'.text = false) ∧
      endpoint.connectUrl = buildUrlWithIp url ip.text (portOf url) := by
  rw [resolveAndCheckEndpoint] at accepted
  cases policy : checkEndpointPolicy settings url with
  | error e =>
    rw [policy] at accepted
    cases accepted
  | ok _ =>
    simp only [policy, outside, if_false, bind, Except.bind] at accepted
    cases found : extractHost url with
    | none =>
      simp only [found] at accepted
      cases accepted
    | some host =>
      simp only [found] at accepted
      cases resolved : toSocketAddrs (host ++ ':' :: decimal (portOf url)) with
      | error e =>
        simp only [resolved] at accepted
        cases accepted
      | ok addrs =>
        simp only [resolved] at accepted
        cases addrs with
        | nil => cases accepted
        | cons ip addrs =>
          simp only at accepted
          split at accepted
          · cases accepted
          · rename_i unblocked
            cases accepted
            refine ⟨host, ip, addrs, rfl, resolved, ?_, rfl⟩
            intro ip' hip'
            simpa using List.find?_eq_none.mp unblocked ip' hip'

theorem exists_splitOnce_of_extractHost {url host : Text} (h : extractHost url = some host) :
    ∃ scheme after, splitOnce "://".toList url = some (scheme, after) := by
  rw [extractHost] at h
  obtain ⟨⟨scheme, after⟩, found, -⟩ := Option.bind_eq_some_iff.mp h
  exact ⟨scheme, after, found⟩

/-- The first address that the host is resolved to keeps the port. -/
def KeepsPort (toSocketAddrs : Resolver) (url : Text) : Prop :=
  ∀ host ip addrs, extractHost url = some host →
    toSocketAddrs (host ++ ':' :: decimal (portOf url)) = .ok (ip :: addrs) → ¬ LosesPort url ip

/-- Outside of open mode, an accepted URL is rewritten to a checked address just if it has a
scheme and keeps the port that was found. -/
theorem connectsToChecked_iff {settings : Settings} {toSocketAddrs : Resolver} {url : Text}
    {endpoint : ResolvedEndpoint} (outside : settings.policy ≠ "open".toList)
    (accepted : resolveAndCheckEndpoint settings toSocketAddrs url = .ok endpoint) :
    ConnectsToChecked toSocketAddrs url endpoint ↔
      HasScheme url ∧ KeepsPort toSocketAddrs url := by
  obtain ⟨host, ip, addrs, found, resolved, unblocked, connect⟩ :=
    resolveAndCheckEndpoint_ok outside accepted
  obtain ⟨scheme, after, cut⟩ := exists_splitOnce_of_extractHost found
  constructor
  · rintro ⟨_, _, -, -, -, ip', -, leads⟩
    rw [connect] at leads
    have proper := isScheme_of_leadsTo cut leads
    refine ⟨⟨scheme, after, cut, proper⟩, ?_⟩
    intro host' ip'' addrs' found' resolved' loses
    rw [found] at found'
    cases found'
    rw [resolved] at resolved'
    cases resolved'
    exact not_leadsTo_of_losesPort cut proper loses leads
  · rintro ⟨⟨scheme', after', cut', proper⟩, keeps⟩
    rw [cut] at cut'
    cases cut'
    refine ⟨host, ip :: addrs, found, resolved, unblocked, ip, List.mem_cons_self, ?_⟩
    rw [connect]
    exact leadsTo_of_keepsPort cut proper (keeps host ip addrs found resolved)

/-- The addresses that the block list gets wrong. -/
def IpAddr.Misjudged : IpAddr → Prop
  | .v4 _ => False
  | .v6 x => x.Misjudged

/-- Which addresses the block list gets right, and which accepted URLs lead to a checked
address. -/
theorem endpointChecks_iff (ip : IpAddr) (settings : Settings) (toSocketAddrs : Resolver)
    (url : Text) (endpoint : ResolvedEndpoint) :
    ((isBlockedHost ip.text = true ↔ ip.Internal) ↔ ¬ ip.Misjudged) ∧
      (settings.policy ≠ "open".toList →
        resolveAndCheckEndpoint settings toSocketAddrs url = .ok endpoint →
        (ConnectsToChecked toSocketAddrs url endpoint ↔
          HasScheme url ∧ KeepsPort toSocketAddrs url)) := by
  refine ⟨?_, fun outside accepted => connectsToChecked_iff outside accepted⟩
  cases ip with
  | v4 x => exact iff_of_true Ipv4Addr.isBlockedHost_text id
  | v6 x => exact Ipv6Addr.isBlockedHost_iff_internal_iff

/-- `fe90::1`. -/
def linkLocalAddr : Ipv6Addr := ⟨[0xfe90, 0, 0, 0, 0, 0, 0, 1], by decide, by decide⟩

/-- `fe90::1` is link-local but not blocked, and `http:/127.0.0.1?x://example.com` is accepted
although its rewritten form has no authority. -/
theorem not_endpointChecks :
    (¬ ∀ ip : IpAddr, isBlockedHost ip.text = true ↔ ip.Internal) ∧
      ¬ ∀ (settings : Settings) (toSocketAddrs : Resolver) (url : Text)
        (endpoint : ResolvedEndpoint), settings.policy ≠ "open".toList →
        resolveAndCheckEndpoint settings toSocketAddrs url = .ok endpoint →
        ConnectsToChecked toSocketAddrs url endpoint := by
  constructor
  · intro blocks
    have judged : isBlockedHost linkLocalAddr.text = true ↔ linkLocalAddr.Internal :=
      blocks (.v6 linkLocalAddr)
    have misjudged : linkLocalAddr.Misjudged := ⟨rfl, .inl ⟨0xfe90, _, rfl, .inl (by decide)⟩⟩
    exact Ipv6Addr.isBlockedHost_iff_internal_iff.mp judged misjudged
  · intro connects
    have outer : isBlockedHost (Ipv4Addr.text ⟨93, 184, 216, 34⟩) = false := by
      rw [isBlockedHost_eq]
      decide
    have named : isBlockedHost "example.com".toList = false := by
      rw [isBlockedHost_eq]
      decide
    have host : extractHost "http:/127.0.0.1?x://example.com".toList = some
        "example.com".toList := by
      decide
    have policy : checkEndpointPolicy ⟨none, none⟩ "http:/127.0.0.1?x://example.com".toList =
        .ok () := by
      rw [checkEndpointPolicy, host, Option.any_some, named]
      decide
    have accepted : ∃ endpoint, resolveAndCheckEndpoint ⟨none, none⟩
        (fun _ => .ok [.v4 ⟨93, 184, 216, 34⟩]) "http:/127.0.0.1?x://example.com".toList =
          .ok endpoint := by
      have closed : (Settings.policy ⟨none, none⟩ = "open".toList) ↔ False := by decide
      simp only [resolveAndCheckEndpoint, policy, host, closed, if_false, bind, Except.bind,
        List.find?_cons, IpAddr.text, outer, List.find?_nil]
      exact ⟨_, rfl⟩
    obtain ⟨endpoint, accepted⟩ := accepted
    have checked := connects _ _ _ endpoint (by decide) accepted
    obtain ⟨⟨scheme, after, cut, -, free⟩, -⟩ :=
      (connectsToChecked_iff (by decide) accepted).mp checked
    have first : splitOnce "://".toList "http:/127.0.0.1?x://example.com".toList =
        some ("http:/127.0.0.1?x".toList, "example.com".toList) := by decide
    rw [first] at cut
    cases cut
    exact absurd (free ':' (by decide)) (by decide)

end PgRipple.Federation
