import RaiBlocks.Foundation.Index
import RaiBlocks.Foundation.Machine
import RaiBlocks.Node.Messages

/-!
# Peers

Translation of `reserved_address` and `peer_container` (`rai/node/node.cpp`).

The container of the peers has seven indices. Those are modelled that the functions here
look at: by endpoint, by the time of the last contact, and the sequence. Its endpoints all have
addresses of version 6: `insert` throws for others, and the hash function of endpoints
fails an assertion. Every call is given the time that the clock shows. The observers are not
called.
-/

namespace RaiBlocks

open Foundation

/-! ## Addresses -/

namespace AddressV6

/-- `operator<=`: the bytes decide, then the scope ids. -/
def le (a b : AddressV6) : Bool :=
  a.bytes < b.bytes || (a.bytes = b.bytes && a.scopeId ≤ b.scopeId)

def isUnspecified (a : AddressV6) : Bool := a.bytes = 0

def isLoopback (a : AddressV6) : Bool := a.bytes = 1

end AddressV6

/-- The bytes of `address_v6::v4_mapped`. -/
def mappedFromV4Bytes (address : BitVec 32) : BitVec 128 :=
  0xffff00000000 ||| address.setWidth 128

/-- The least and the greatest address, which have no scope id. -/
structure AddressRange where
  min : BitVec 128
  max : BitVec 128
deriving DecidableEq

namespace AddressRange

def contains (r : AddressRange) (a : AddressV6) : Bool :=
  AddressV6.le ⟨r.min, 0⟩ a && a.le ⟨r.max, 0⟩

def mapped (min max : BitVec 32) : AddressRange := ⟨mappedFromV4Bytes min, mappedFromV4Bytes max⟩

def rfc1700 : AddressRange := mapped 0x00000000 0x00ffffff
def ipv4Loopback : AddressRange := mapped 0x7f000000 0x7fffffff
def rfc1918n1 : AddressRange := mapped 0x0a000000 0x0affffff
def rfc1918n2 : AddressRange := mapped 0xac100000 0xac1fffff
def rfc1918n3 : AddressRange := mapped 0xc0a80000 0xc0a8ffff
def rfc6598 : AddressRange := mapped 0x64400000 0x647fffff
def rfc5737n1 : AddressRange := mapped 0xc0000200 0xc00002ff
def rfc5737n2 : AddressRange := mapped 0xc6336400 0xc63364ff
def rfc5737n3 : AddressRange := mapped 0xcb007100 0xcb0071ff
def ipv4Multicast : AddressRange := mapped 0xe0000000 0xefffffff
def rfc6890 : AddressRange := mapped 0xf0000000 0xffffffff
def rfc6666 : AddressRange :=
  ⟨0x01000000000000000000000000000000, 0x0100000000000000ffffffffffffffff⟩
def rfc3849 : AddressRange :=
  ⟨0x20010db8000000000000000000000000, 0x20010db8ffffffffffffffffffffffff⟩
def rfc4193 : AddressRange :=
  ⟨0xfc000000000000000000000000000000, 0xfd00ffffffffffffffffffffffffffff⟩
def ipv6Multicast : AddressRange :=
  ⟨0xff000000000000000000000000000000, 0xff00ffffffffffffffffffffffffffff⟩

/-- The ranges that are reserved in all networks, and those in the live network, in the order
in which they are tested. -/
def always : List AddressRange :=
  [rfc1700, rfc5737n1, rfc5737n2, rfc5737n3, ipv4Multicast, rfc6890, rfc6666, rfc3849,
    ipv6Multicast]

def live : List AddressRange :=
  [ipv4Loopback, rfc1918n1, rfc1918n2, rfc1918n3, rfc6598, rfc4193]

end AddressRange

/-- `reserved_address` for an address of version 6. For others it fails an assertion, but it is
not called for them. -/
def reservedAddress (network : RaiNetworks) (a : AddressV6) : Bool :=
  AddressRange.always.any (·.contains a) ||
    (network = .raiLiveNetwork &&
      (a.isLoopback || AddressRange.live.any (·.contains a)))

/-! ## The table of peers -/

/-- `probable_rep_account` has no value at first. -/
structure PeerInformation where
  endpoint : EndpointV6
  lastContact : ℕ
  lastAttempt : ℕ
  lastBootstrapAttempt : ℕ
  lastRepRequest : ℕ
  lastRepResponse : ℕ
  repWeight : Uint128
  probableRepAccount : Option Account
  networkVersion : ℕ
deriving DecidableEq

/-- The constructor that takes a version. -/
def PeerInformation.new (endpoint : EndpointV6) (networkVersion now : ℕ) : PeerInformation :=
  ⟨endpoint, now, now, 0, 0, 0, 0, none, networkVersion⟩

/-- The peers, found by endpoint and in the order of the last contact, and the same peers in the
sequence in which they came. -/
structure PeerTable where
  index : Index PeerInformation.endpoint PeerInformation.lastContact
  sequence : List PeerInformation
  perm : sequence.Perm index.entries

namespace PeerTable

def empty : PeerTable := ⟨.empty, [], .refl _⟩

theorem perm_insert {t : PeerTable} {info : PeerInformation}
    (h : info.endpoint ∉ t.index.entries.map PeerInformation.endpoint) :
    (t.sequence ++ [info]).Perm (t.index.insert info).entries :=
  (List.perm_append_singleton info t.sequence).trans
    ((t.perm.cons info).trans (Index.perm_insert h).symm)

def insert (t : PeerTable) (info : PeerInformation) : PeerTable :=
  if h : info.endpoint ∈ t.index.entries.map PeerInformation.endpoint then t
  else ⟨t.index.insert info, t.sequence ++ [info], perm_insert h⟩

theorem perm_modify (t : PeerTable) (info : PeerInformation) :
    (Index.assign PeerInformation.endpoint info t.sequence).Perm
      (t.index.replace info).entries :=
  (t.perm.map _).trans Index.perm_replace_assign.symm

/-- `modify`: the information about a peer is another now. -/
def modify (t : PeerTable) (info : PeerInformation) : PeerTable :=
  ⟨t.index.replace info, Index.assign PeerInformation.endpoint info t.sequence, perm_modify t info⟩

theorem perm_purge (t : PeerTable) (cutoff : ℕ) :
    (t.sequence.filter fun info => cutoff ≤ info.lastContact).Perm
      (t.index.eraseBelow cutoff).entries := by
  have hentries : (t.index.eraseBelow cutoff).entries =
      t.index.entries.filter fun info => cutoff ≤ info.lastContact :=
    Index.dropWhile_eq_filter t.index.sorted cutoff
  rw [hentries]
  exact t.perm.filter _

/-- Erase the peers without contact since the cutoff. -/
def purge (t : PeerTable) (cutoff : ℕ) : PeerTable :=
  ⟨t.index.eraseBelow cutoff, t.sequence.filter fun info => cutoff ≤ info.lastContact,
    perm_purge t cutoff⟩

/-- Set `last_attempt` for all of them, one after the other. -/
def touch (t : PeerTable) (now : EndpointV6 → ℕ) : PeerTable where
  index := t.index.update (fun info => { info with lastAttempt := now info.endpoint })
    (fun _ => rfl) (fun _ => rfl)
  sequence := t.sequence.map fun info => { info with lastAttempt := now info.endpoint }
  perm := t.perm.map _

def endpoints (t : PeerTable) : List EndpointV6 := t.index.entries.map PeerInformation.endpoint

end PeerTable

structure PeerAttempt where
  endpoint : EndpointV6
  lastAttempt : ℕ
deriving DecidableEq

structure PeerContainer where
  self : UdpEndpoint
  peers : PeerTable
  attempts : Index PeerAttempt.endpoint PeerAttempt.lastAttempt

inductive PeerFault where
  /-- Thrown by `to_v6` for an address of version 4. -/
  | badCast
  | assertion
deriving DecidableEq

def protocolVersionMin : ℕ := 0x07

namespace PeerContainer

def new (self : UdpEndpoint) : PeerContainer := ⟨self, .empty, .empty⟩

variable (network : RaiNetworks)

def notAPeer (c : PeerContainer) (endpoint : EndpointV6) : Bool :=
  endpoint.address.isUnspecified || reservedAddress network endpoint.address ||
    (UdpEndpoint.v6 endpoint = c.self)

def knownPeer (c : PeerContainer) (endpoint : EndpointV6) : Bool :=
  (c.peers.index.find? endpoint).isSome

/-- Returns true if the peer was known, or is none. -/
def insert (c : PeerContainer) (endpoint : UdpEndpoint) (version now : ℕ) :
    Except PeerFault (Bool × PeerContainer) :=
  match endpoint with
  | .v4 _ _ => .error .badCast
  | .v6 endpoint =>
    if c.notAPeer network endpoint then .ok (true, c)
    else if protocolVersionMin ≤ version then
      match c.peers.index.find? endpoint with
      | some info =>
        .ok (true, { c with peers := c.peers.modify { info with lastContact := now } })
      | none => .ok (false, { c with peers := c.peers.insert (.new endpoint version now) })
    else .ok (false, c)

def contacted (c : PeerContainer) (endpoint : UdpEndpoint) (version now : ℕ) :
    Except PeerFault (Bool × PeerContainer) :=
  match endpoint with
  | .v4 bytes port => c.insert network (.v6 ⟨⟨mappedFromV4Bytes bytes, 0⟩, port⟩) version now
  | .v6 endpoint => c.insert network (.v6 endpoint) version now

/-- Should we reach out to this endpoint with a keepalive message: false if so. -/
def reachout (c : PeerContainer) (endpoint : UdpEndpoint) (now : ℕ) :
    Except PeerFault (Bool × PeerContainer) :=
  match endpoint with
  | .v4 _ _ => .error .badCast
  | .v6 endpoint =>
    if c.notAPeer network endpoint then .ok (true, c)
    else
      .ok (c.knownPeer endpoint || (c.attempts.find? endpoint).isSome,
        { c with attempts := c.attempts.insert ⟨endpoint, now⟩ })

/-- Returns true if the weight is more than what was known. -/
def repResponse (c : PeerContainer) (endpoint : UdpEndpoint) (repAccount : Account)
    (weight : Uint128) (now : ℕ) : Except PeerFault (Bool × PeerContainer) :=
  match endpoint with
  | .v4 _ _ => .error .assertion
  | .v6 endpoint =>
    match c.peers.index.find? endpoint with
    | none => .ok (false, c)
    | some info =>
      let heard := { info with lastRepResponse := now }
      if info.repWeight < weight then
        let rep := { heard with repWeight := weight, probableRepAccount := some repAccount }
        .ok (true, { c with peers := c.peers.modify rep })
      else .ok (false, { c with peers := c.peers.modify heard })

def repRequest (c : PeerContainer) (endpoint : UdpEndpoint) (now : ℕ) :
    Except PeerFault PeerContainer :=
  match endpoint with
  | .v4 _ _ => .error .assertion
  | .v6 endpoint =>
    match c.peers.index.find? endpoint with
    | none => .ok c
    | some info => .ok { c with peers := c.peers.modify { info with lastRepRequest := now } }

/-- Returns the peers that are left, as they were before their last attempt was set. -/
def purgeList (c : PeerContainer) (cutoff : ℕ) (now : EndpointV6 → ℕ) :
    List PeerInformation × PeerContainer :=
  let peers := c.peers.purge cutoff
  (peers.index.entries,
    { c with peers := peers.touch now, attempts := c.attempts.eraseBelow cutoff })

end PeerContainer

/-! ## Calls -/

inductive PeerCall where
  | contacted (endpoint : UdpEndpoint) (version now : ℕ)
  | insert (endpoint : UdpEndpoint) (version now : ℕ)
  | reachout (endpoint : UdpEndpoint) (now : ℕ)
  | repResponse (endpoint : UdpEndpoint) (repAccount : Account) (weight : Uint128) (now : ℕ)
  | repRequest (endpoint : UdpEndpoint) (now : ℕ)
  | purgeList (cutoff : ℕ) (now : EndpointV6 → ℕ)

namespace PeerContainer

variable (network : RaiNetworks)

/-- What a call leaves. One that throws has not changed anything; a failed assertion ends the
program. -/
def after (c : PeerContainer) : Except PeerFault PeerContainer → Except PeerFault PeerContainer
  | .error .badCast => .ok c
  | result => result

def call (c : PeerContainer) : PeerCall → Except PeerFault PeerContainer
  | .contacted endpoint version now =>
    c.after ((c.contacted network endpoint version now).map Prod.snd)
  | .insert endpoint version now =>
    c.after ((c.insert network endpoint version now).map Prod.snd)
  | .reachout endpoint now => c.after ((c.reachout network endpoint now).map Prod.snd)
  | .repResponse endpoint repAccount weight now =>
    c.after ((c.repResponse endpoint repAccount weight now).map Prod.snd)
  | .repRequest endpoint now => c.after (c.repRequest endpoint now)
  | .purgeList cutoff now => .ok (c.purgeList cutoff now).2

end PeerContainer

/-! ## Random peers -/

/-- `std::unordered_set<rai::endpoint>` -/
structure EndpointSet where
  elems : List EndpointV6
  nodup : elems.Nodup

namespace EndpointSet

def empty : EndpointSet := ⟨[], .nil⟩

def insert (s : EndpointSet) (e : EndpointV6) : EndpointSet := ⟨s.elems.insert e, s.nodup.insert⟩

def size (s : EndpointSet) : ℕ := s.elems.length

end EndpointSet

/-- The order in which a set is run through. -/
structure SetOrder where
  list : EndpointSet → List EndpointV6
  perm : ∀ s, (list s).Perm s.elems

inductive SampleFault where
  | outOfFuel
  /-- The counter of the loop is an `int`. -/
  | overflow
  | outOfRange
  | assertion
deriving DecidableEq

/-- What `GenerateWord32 (0, size - 1)` returns each time it is called. The bound is converted to 32
bits. -/
structure Draws (size : ℕ) where
  index : ℕ → ℕ
  le : ∀ i, index i ≤ (size - 1) % 2 ^ 32

namespace PeerContainer

/-- An iteration of the first loop. -/
def drawPeer (c : PeerContainer) (draws : Draws c.peers.sequence.length) (s : ℕ × EndpointSet) :
    Except SampleFault (ℕ × EndpointSet) :=
  match c.peers.sequence[draws.index s.1]? with
  | none => .error .outOfRange
  | some info =>
    if s.1 + 1 < 2 ^ 31 then .ok (s.1 + 1, s.2.insert info.endpoint) else .error .overflow

/-- The first loop, which stops trying to fill the result with random samples after twice as many
attempts. -/
def drawPeers (c : PeerContainer) (draws : Draws c.peers.sequence.length) (countA : ℕ) :
    Except SampleFault EndpointSet :=
  let randomCutoff := countA * 2 % 2 ^ 64
  if c.peers.sequence.isEmpty then .ok .empty
  else
    (whileLoop .outOfFuel (fun s => s.1 < randomCutoff && s.2.size < countA) (c.drawPeer draws)
      randomCutoff (0, .empty)).map Prod.snd

/-- The second loop. It begins with the peers whose last contact was long ago, though the source
has a comment that says the most recent. -/
def fillRemainder (countA : ℕ) : List PeerInformation → EndpointSet → EndpointSet
  | [], result => result
  | info :: rest, result =>
    if result.size < countA then fillRemainder countA rest (result.insert info.endpoint)
    else result

def randomSet (c : PeerContainer) (draws : Draws c.peers.sequence.length) (countA : ℕ) :
    Except SampleFault EndpointSet := do
  let result ← c.drawPeers draws countA
  .ok (fillRemainder countA c.peers.index.entries result)

/-- The loop of `random_fill`. -/
def store : List EndpointV6 → ℕ → Vector UdpEndpoint 8 → Except SampleFault (Vector UdpEndpoint 8)
  | [], _, target => .ok target
  | e :: rest, j, target =>
    if h : j < 8 then store rest (j + 1) (target.set j (.v6 e) h) else .error .assertion

/-- All endpoints have addresses of version 6, as is asserted. -/
def randomFill (c : PeerContainer) (draws : Draws c.peers.sequence.length) (order : SetOrder)
    (targetA : Vector UdpEndpoint 8) : Except SampleFault (Vector UdpEndpoint 8) := do
  let peers ← c.randomSet draws 8
  if peers.size ≤ 8 then
    store (order.list peers) 0 (targetA.map fun _ => .v6 ⟨⟨0, 0⟩, 0⟩)
  else .error .assertion

end PeerContainer

end RaiBlocks
