import Itx.Hub.Envelope
import Itx.Lib.Address

/-!
# The address a request is charged to

The hub charges a request to the address of its peer, unless the peer is one of its own proxies
(`client_ip`, `hub/src/rate_limit.rs`). It then believes what the proxies have appended to the
lines of `X-Forwarded-For`: the entries of all lines are read from the right, up to the first that
is not one of the proxies. An entry that cannot be read ends the walk at the peer, since what is
left of it comes from the client.

* `walk_eq_iff`: the address found is the rightmost that is not a proxy, if all the entries to its
  right are proxies;
* `clientIp_forwarded`: an address a proxy has put on a line of its own is the one charged. One it
  has appended to a line of the client is charged if that line is text. A line that is not text
  is dropped with all its entries, the proxy's among them, and the lines before it decide, which
  are the client's (`clientIp_chosen`).
-/

namespace Itx

/-! ## Requests -/

/-- The bytes `HeaderValue::from_bytes` takes: no control characters but tabs. -/
def headerByte (b : UInt8) : Bool := b = 9 ∨ 32 ≤ b ∧ b ≠ 127

/-- `HeaderValue`, which is not necessarily text. -/
structure HeaderValue where
  bytes : Bytes
  valid : bytes.all headerByte = true
  deriving DecidableEq

/-- The characters of visible ASCII, and the tab. -/
def visibleAscii (b : UInt8) : Bool := b = 9 ∨ 32 ≤ b ∧ b < 127

/-- `HeaderValue::to_str`, as the `http` crate documents it: a value is text when it has none but
    characters of visible ASCII. -/
def ReadsVisible (toStr : HeaderValue → Option Text) : Prop :=
  ∀ value, toStr value = if value.bytes.all visibleAscii then some value.bytes else none

/-- `x-forwarded-for`. -/
def xForwardedFor : Text := "x-forwarded-for".toUTF8.toList

/-- `Request`, less its method, its path and its body: the lines of each header, in order, as
    `HeaderMap::get_all` gives them. -/
structure Request where
  getAll : Text → List HeaderValue

structure SocketAddr where
  ip : IpAddr
  port : UInt16
  deriving DecidableEq

/-- `TrustedProxies`. -/
abbrev TrustedProxies := Finset IpAddr

/-! ## Entries -/

/-- The byte of `,`. -/
def comma : UInt8 := 44

/-- White space among the bytes of text. -/
def isSpace (b : UInt8) : Bool := b = 32 ∨ 9 ≤ b ∧ b ≤ 13

/-- `str::trim`. -/
def trim (s : Text) : Text := (s.dropWhile isSpace).rdropWhile isSpace

/-- `str::split_once`. -/
def splitOnce (sep : UInt8) (s : Text) : Option (Text × Text) :=
  match s.dropWhile (· ≠ sep) with
  | [] => none
  | _ :: rest => some (s.takeWhile (· ≠ sep), rest)

/-- `parse_forwarded_entry`. -/
def parseForwardedEntry (entry : Text) : Option IpAddr :=
  let entry := trim entry
  match IpAddr.parse entry with
  | some address => some address
  | none =>
    if entry.head? = some 91 then do
      let (inside, _) ← splitOnce 93 entry.tail
      IpAddr.parse inside
    else do
      let (host, port) ← splitOnce colon entry
      if colon ∈ host ∨ colon ∈ port then none else IpAddr.parse host

/-- The entries of the lines that are text. -/
def entriesOf (toStr : HeaderValue → Option Text) (lines : List HeaderValue) : List Text :=
  (lines.filterMap toStr).flatMap fun line => line.splitOn comma

/-- The walk through the entries, from the right. -/
def walk (trusted : TrustedProxies) (peer : IpAddr) : List Text → IpAddr
  | [] => peer
  | entry :: entries =>
    match parseForwardedEntry entry with
    | none => peer
    | some address => if address ∉ trusted then address else walk trusted peer entries

/-- `client_ip`. -/
def clientIp (toStr : HeaderValue → Option Text) (req : Request) (connectAddr : SocketAddr)
    (trusted : TrustedProxies) : IpAddr :=
  let peer := connectAddr.ip.toCanonical
  if peer ∉ trusted then peer
  else walk trusted peer (entriesOf toStr (req.getAll xForwardedFor)).reverse

/-! ## What the walk finds -/

variable {toStr : HeaderValue → Option Text} {trusted : TrustedProxies} {peer a : IpAddr}
  {entries : List Text} {lines : List HeaderValue} {entry : Text}

/-- The rightmost entry that is not one of the proxies is `a`, and the ones to its right are. -/
def Names (trusted : TrustedProxies) (a : IpAddr) (entries : List Text) : Prop :=
  ∃ before entry after, entries = before ++ entry :: after ∧ parseForwardedEntry entry = some a ∧
    ∀ e ∈ after, ∃ proxy ∈ trusted, parseForwardedEntry e = some proxy

theorem names_concat : Names trusted a (entries ++ [entry]) ↔ parseForwardedEntry entry = some a ∨
    (∃ proxy ∈ trusted, parseForwardedEntry entry = some proxy) ∧ Names trusted a entries := by
  constructor
  · rintro ⟨before, e, after, hsplit, he, hafter⟩
    rcases List.eq_nil_or_concat' after with rfl | ⟨after, last, rfl⟩
    · obtain ⟨-, rfl⟩ := List.append_inj' hsplit rfl |>.imp_right List.cons.inj |>.imp_right And.left
      exact .inl he
    · rw [← List.cons_append, ← List.append_assoc] at hsplit
      obtain ⟨rfl, hlast⟩ := List.append_inj' hsplit rfl
      obtain rfl := List.head_eq_of_cons_eq hlast
      exact .inr ⟨hafter entry (List.mem_append_right _ (List.mem_singleton_self _)), before, e, after, rfl, he,
        fun e' he' => hafter e' (List.mem_append_left _ he')⟩
  · rintro (h | ⟨hproxy, before, e, after, rfl, he, hafter⟩)
    · exact ⟨entries, entry, [], rfl, h, fun e he => absurd he List.not_mem_nil⟩
    · refine ⟨before, e, after ++ [entry], by rw [List.append_assoc, List.cons_append], he, fun e' he' => ?_⟩
      rcases List.mem_append.1 he' with he' | he'
      · exact hafter e' he'
      · exact List.mem_singleton.1 he' ▸ hproxy

/-- The walk goes on only past a proxy. -/
theorem walk_eq_iff (hpeer : peer ∈ trusted) (ha : a ∉ trusted) :
    walk trusted peer entries.reverse = a ↔ Names trusted a entries := by
  have hne : peer ≠ a := fun h => ha (h ▸ hpeer)
  -- By induction on the entries, the last one first, as they are walked.
  induction entries using List.reverseRecOn with
  | nil =>
    refine iff_of_false hne ?_
    rintro ⟨before, e, after, hsplit, -⟩
    exact List.append_ne_nil_of_right_ne_nil before (List.cons_ne_nil e after) hsplit.symm
  | append_singleton entries entry ih =>
    rw [List.reverse_concat, walk, names_concat]
    cases hentry : parseForwardedEntry entry with
    -- What cannot be parsed ends the walk at the peer, which is a proxy.
    | none => simp [hne]
    | some address =>
      -- A proxy is passed over; anything else is the answer.
      by_cases haddress : address ∈ trusted
      · have haddress' : address ≠ a := fun h => ha (h ▸ haddress)
        simp [haddress, haddress', ih]
      · have hproxy : ¬ ∃ proxy ∈ trusted, address = proxy := by
          rintro ⟨_, hmem, rfl⟩
          exact haddress hmem
        simp [haddress]

/-! ## Lines -/

theorem entriesOf_concat (htoStr : ReadsVisible toStr) {value : HeaderValue} :
    entriesOf toStr (lines ++ [value]) =
      entriesOf toStr lines ++ if value.bytes.all visibleAscii then value.bytes.splitOn comma else [] := by
  rw [entriesOf, entriesOf, List.filterMap_append, List.flatMap_append, List.filterMap_cons,
    List.filterMap_nil, htoStr]
  split_ifs with h <;> simp

/-- A proxy writes an address it has seen: text, without commas. -/
structure Readable (entry : Text) (a : IpAddr) : Prop where
  parse : parseForwardedEntry entry = some a
  comma : comma ∉ entry
  visible : entry.all visibleAscii = true

theorem Readable.splitOn (h : Readable entry a) : entry.splitOn Itx.comma = [entry] := by
  refine List.splitOnP_eq_singleton fun b hb => ?_
  exact beq_false_of_ne fun he => h.comma (he ▸ hb)

theorem Readable.splitOn_append (h : Readable entry a) (line : Text) :
    (line ++ Itx.comma :: entry).splitOn Itx.comma = line.splitOn Itx.comma ++ [entry] := by
  rw [← h.splitOn]
  exact List.splitOnP_append_cons line entry (beq_self_eq_true _)

/-- What is appended to a line that is text is read, and what is appended to another is not. -/
theorem names_appended (htoStr : ReadsVisible toStr) (h : Readable entry a) {client value : HeaderValue}
    (hvalue : value.bytes = client.bytes ++ Itx.comma :: entry) :
    Names trusted a (entriesOf toStr (lines ++ [value])) ↔
      client.bytes.all visibleAscii = true ∨ Names trusted a (entriesOf toStr lines) := by
  have hall : value.bytes.all visibleAscii = client.bytes.all visibleAscii := by
    have hcomma : visibleAscii Itx.comma = true := rfl
    rw [hvalue, List.all_append, List.all_cons, hcomma, h.visible, Bool.and_self, Bool.and_true]
  rw [entriesOf_concat htoStr, hall]
  split_ifs with hclient
  · rw [hvalue, h.splitOn_append, ← List.append_assoc, names_concat]
    exact iff_of_true (.inl h.parse) (.inl hclient)
  · rw [List.append_nil, or_iff_right hclient]

/-- The address of a peer that is not a proxy is its own, whatever it sends. The address a proxy
    writes on a line of its own is the one charged. The one it appends to a line of the client is
    so exactly if that line is text, or the lines before it name the same address. -/
theorem clientIp_forwarded (htoStr : ReadsVisible toStr) (req : Request) (connectAddr : SocketAddr)
    (trusted : TrustedProxies) :
    (connectAddr.ip.toCanonical ∉ trusted →
      clientIp toStr req connectAddr trusted = connectAddr.ip.toCanonical) ∧
    (connectAddr.ip.toCanonical ∈ trusted → ∀ a ∉ trusted, ∀ entry, Readable entry a →
      ∀ lines value, req.getAll xForwardedFor = lines ++ [value] →
        (value.bytes = entry → clientIp toStr req connectAddr trusted = a) ∧
        ∀ client : HeaderValue, value.bytes = client.bytes ++ comma :: entry →
          (clientIp toStr req connectAddr trusted = a ↔
            client.bytes.all visibleAscii = true ∨ Names trusted a (entriesOf toStr lines))) := by
  refine ⟨fun hpeer => if_pos hpeer, fun hpeer a ha entry hentry lines value hlines => ?_⟩
  have hwalk : clientIp toStr req connectAddr trusted = a ↔
      Names trusted a (entriesOf toStr (lines ++ [value])) := by
    rw [clientIp, if_neg (not_not.2 hpeer), hlines]
    exact walk_eq_iff hpeer ha
  refine ⟨fun hvalue => hwalk.2 ?_,
    fun client hvalue => hwalk.trans (names_appended htoStr hentry hvalue)⟩
  rw [entriesOf_concat htoStr, hvalue, if_pos hentry.visible, hentry.splitOn, names_concat]
  exact .inl hentry.parse

/-- Behind a line that is not text, a client is charged to any address it names. -/
theorem clientIp_chosen (htoStr : ReadsVisible toStr) {req : Request} {connectAddr : SocketAddr}
    {b : IpAddr} {named : Text} {chosen client value : HeaderValue}
    (hpeer : connectAddr.ip.toCanonical ∈ trusted) (hb : b ∉ trusted) (hnamed : Readable named b)
    (hchosen : chosen.bytes = named) (hclient : client.bytes.all visibleAscii = false)
    (hvalue : value.bytes = client.bytes ++ Itx.comma :: entry)
    (hlines : req.getAll xForwardedFor = [chosen, value]) :
    clientIp toStr req connectAddr trusted = b := by
  have hdropped : entriesOf toStr ([chosen] ++ [value]) = entriesOf toStr ([] ++ [chosen]) := by
    have hall : value.bytes.all visibleAscii = false := by
      rw [hvalue, List.all_append, hclient, Bool.false_and]
    rw [entriesOf_concat htoStr, hall, if_neg Bool.false_ne_true, List.append_nil, List.nil_append]
  rw [clientIp, if_neg (not_not.2 hpeer), hlines, walk_eq_iff hpeer hb]
  change Names trusted b (entriesOf toStr ([chosen] ++ [value]))
  rw [hdropped, entriesOf_concat htoStr, hchosen, if_pos hnamed.visible, hnamed.splitOn, names_concat]
  exact .inl hnamed.parse

/-! ## A request behind a proxy -/

namespace ForwardedSample

def bytesOf (s : String) : Text := s.toUTF8.toList

/-- What `HeaderValue::to_str` does. -/
def visibleToStr (value : HeaderValue) : Option Text :=
  if value.bytes.all visibleAscii then some value.bytes else none

theorem readsVisible : ReadsVisible visibleToStr := fun _ => rfl

/-- The lines of `X-Forwarded-For`, beside the name of the host. -/
def withLines (lines : List HeaderValue) : Request where
  getAll name :=
    if name = xForwardedFor then lines
    else if name = bytesOf "host" then [⟨bytesOf "hub", by decide +kernel⟩]
    else []

/-- The proxy, the client, and the address the client names. -/
def proxy : IpAddr := .v4 ⟨10, 0, 0, 1⟩

def client : IpAddr := .v4 ⟨203, 0, 113, 9⟩

def named : IpAddr := .v4 ⟨6, 6, 6, 6⟩

/-- The first line of the client. -/
def first : HeaderValue := ⟨bytesOf "6.6.6.6", by decide +kernel⟩

/-- A byte that is not text, the line of the client that consists of it, and the line as the proxy
    forwards it. -/
def garbled : HeaderValue := ⟨[255], by decide +kernel⟩

def proxyEntry : Text := bytesOf " 203.0.113.9:51234"

def forwarded : HeaderValue := ⟨garbled.bytes ++ comma :: proxyEntry, by decide +kernel⟩

def request : Request := withLines [first, forwarded]

/-- The same behind a line of text. -/
def extended : HeaderValue := ⟨first.bytes ++ comma :: proxyEntry, by decide +kernel⟩

def plainRequest : Request := withLines [extended]

theorem readable : Readable proxyEntry client :=
  ⟨by decide +kernel, by decide +kernel, by decide +kernel⟩

theorem readable_named : Readable first.bytes named :=
  ⟨by decide +kernel, by decide +kernel, by decide +kernel⟩

theorem lines_request : request.getAll xForwardedFor = [first] ++ [forwarded] := if_pos rfl

end ForwardedSample

open ForwardedSample in
/-- The proxy has appended the address of its client, and the request is charged to another one,
    which the client has written. -/
theorem clientIp_forwarded_fails :
    Readable proxyEntry client ∧ proxy.toCanonical ∈ ({proxy} : TrustedProxies) ∧
      client ∉ ({proxy} : TrustedProxies) ∧ request.getAll xForwardedFor = [first] ++ [forwarded] ∧
      forwarded.bytes = garbled.bytes ++ comma :: proxyEntry ∧
      clientIp visibleToStr request ⟨proxy, 443⟩ {proxy} = named ∧ named ≠ client := by
  have hproxy : proxy.toCanonical ∈ ({proxy} : TrustedProxies) := by decide
  have hnamed : named ∉ ({proxy} : TrustedProxies) := by decide
  refine ⟨readable, hproxy, by decide, lines_request, rfl, ?_, by decide⟩
  exact clientIp_chosen readsVisible hproxy hnamed readable_named rfl rfl rfl lines_request

open ForwardedSample in
/-- Behind a line of text the same entry is believed. -/
theorem clientIp_forwarded_sample : clientIp visibleToStr plainRequest ⟨proxy, 443⟩ {proxy} = client := by
  obtain ⟨-, hproxied⟩ := clientIp_forwarded readsVisible plainRequest ⟨proxy, 443⟩ {proxy}
  have hlines : plainRequest.getAll xForwardedFor = [] ++ [extended] := if_pos rfl
  obtain ⟨-, happended⟩ := hproxied (by decide) client (by decide) proxyEntry readable [] extended hlines
  exact (happended first rfl).2 (.inl (by decide +kernel))

end Itx
