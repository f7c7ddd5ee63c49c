import RaiBlocks.Node.Peers

/-!
# Addresses of peers

No peer may have a reserved address. Two of the ranges in `reserved_address` end too early:
the local addresses `fc00::/7` at `fd00:ffff:…`, the multicast addresses `ff00::/8` at
`ff00:ffff:…`. And the last address of any range is not in the range if it has a scope
id, which comes after the bytes in the order of addresses.
-/

namespace RaiBlocks

open Foundation AddressRange PeerContainer

variable {a : AddressV6}

/-! ## Reserved networks -/

/-- The addresses that have the first bits in common. -/
structure Net where
  base : BitVec 128
  length : ℕ
deriving DecidableEq

namespace Net

def Contains (n : Net) (bytes : BitVec 128) : Prop :=
  bytes >>> (128 - n.length) = n.base >>> (128 - n.length)

instance decidableContains (n : Net) (bytes : BitVec 128) : Decidable (n.Contains bytes) :=
  inferInstanceAs (Decidable (_ = _))

/-- A network of version 4. -/
def mapped (base : BitVec 32) (length : ℕ) : Net := ⟨mappedFromV4Bytes base, 96 + length⟩

def uniqueLocal : Net := ⟨0xfc000000000000000000000000000000, 7⟩

def multicast : Net := ⟨0xff000000000000000000000000000000, 8⟩

def loopback : Net := ⟨1, 128⟩

def reserved : List Net :=
  [mapped 0x00000000 8, mapped 0x0a000000 8, mapped 0x64400000 10, mapped 0x7f000000 8,
    mapped 0xac100000 12, mapped 0xc0000200 24, mapped 0xc0a80000 16, mapped 0xc6336400 24,
    mapped 0xcb007100 24, mapped 0xe0000000 4, mapped 0xf0000000 4, loopback,
    ⟨0x01000000000000000000000000000000, 64⟩, ⟨0x20010db8000000000000000000000000, 32⟩,
    uniqueLocal, multicast]

/-- The last address. -/
def last (n : Net) : BitVec 128 := n.base ||| BitVec.allOnes 128 >>> n.length

/-- The base has no bits but the first ones. -/
def Aligned (n : Net) : Prop :=
  2 ^ (128 - n.length) ∣ n.base.toNat ∧ n.last.toNat + 1 = n.base.toNat + 2 ^ (128 - n.length)

theorem aligned_of_mem : ∀ n ∈ reserved, n.Aligned := by
  unfold Aligned
  decide +kernel

theorem contains_iff {n : Net} (h : n.Aligned) {bytes : BitVec 128} :
    n.Contains bytes ↔ n.base.toNat ≤ bytes.toNat ∧ bytes.toNat ≤ n.last.toNat := by
  obtain ⟨⟨q, hq⟩, hlast⟩ := h
  have hpos : 0 < 2 ^ (128 - n.length) := by positivity
  rw [Contains, ← BitVec.toNat_inj, BitVec.toNat_ushiftRight, BitVec.toNat_ushiftRight,
    Nat.shiftRight_eq_div_pow, Nat.shiftRight_eq_div_pow, hq, Nat.mul_div_cancel_left _ hpos,
    Nat.div_eq_iff hpos, Nat.mul_comm q, ← hq]
  omega

end Net

/-- The address is in one of the reserved networks. -/
def Reserved (bytes : BitVec 128) : Prop := ∃ n ∈ Net.reserved, n.Contains bytes

instance decidableReserved (bytes : BitVec 128) : Decidable (Reserved bytes) :=
  inferInstanceAs (Decidable (∃ n ∈ _, _))

namespace AddressRange

/-- All ranges that are tested in the live network. -/
def all : List AddressRange := always ++ live

/-- Every reserved network is one of the ranges, but for three. -/
theorem exists_range : ∀ n ∈ Net.reserved,
    n = Net.loopback ∨ n = Net.uniqueLocal ∨ n = Net.multicast ∨
      ∃ r ∈ all, r.min = n.base ∧ r.max = n.last := by
  decide +kernel

theorem contains_iff {r : AddressRange} {a : AddressV6} :
    r.contains a = true ↔ r.min.toNat ≤ a.bytes.toNat ∧
      (a.bytes.toNat < r.max.toNat ∨ a.bytes = r.max ∧ a.scopeId = 0) := by
  simp only [contains, AddressV6.le, Bool.and_eq_true, Bool.or_eq_true, decide_eq_true_eq,
    BitVec.lt_def, Nat.le_zero, Nat.zero_le, and_true]
  refine and_congr_left fun _ => ?_
  rw [Nat.le_iff_lt_or_eq, BitVec.toNat_inj]

end AddressRange

/-! ## Addresses that are missed -/

/-- Reserved addresses that `reserved_address` does not know: from `fd01::` on, from `ff01::` on,
and the last addresses of ranges with a scope id. -/
def Missed (a : AddressV6) : Prop :=
  (0xfd010000000000000000000000000000 ≤ a.bytes ∧ a.bytes ≤ 0xfdffffffffffffffffffffffffffffff) ∨
    0xff010000000000000000000000000000 ≤ a.bytes ∨ (a.scopeId ≠ 0 ∧ ∃ r ∈ all, a.bytes = r.max)

instance decidableMissed (a : AddressV6) : Decidable (Missed a) :=
  inferInstanceAs (Decidable (_ ∨ _ ∨ _))

theorem reservedAddress_eq_false_iff :
    reservedAddress .raiLiveNetwork a = false ↔
      a.isLoopback = false ∧ ∀ r ∈ all, r.contains a = false := by
  simp only [reservedAddress, all, Bool.or_eq_false_iff, decide_true, Bool.true_and,
    List.any_eq_false, Bool.not_eq_true, List.mem_append]
  constructor
  · rintro ⟨halways, hloopback, hlive⟩
    exact ⟨hloopback, fun r hr => hr.elim (halways r) (hlive r)⟩
  · rintro ⟨hloopback, hall⟩
    exact ⟨fun r hr => hall r (Or.inl hr), hloopback, fun r hr => hall r (Or.inr hr)⟩

theorem missed_of_reserved (h : Reserved a.bytes)
    (hfalse : reservedAddress .raiLiveNetwork a = false) : Missed a := by
  obtain ⟨n, hn, hcontains⟩ := h
  obtain ⟨hloopback, hranges⟩ := reservedAddress_eq_false_iff.mp hfalse
  have hbounds := (Net.contains_iff (Net.aligned_of_mem n hn)).mp hcontains
  -- an address in a range that is not found is the last one
  have hrange : ∀ r ∈ all, r.min.toNat ≤ a.bytes.toNat →
      a.bytes.toNat ≤ r.max.toNat → Missed a := by
    intro r hr hmin hmax
    have hnot := hranges r hr
    rw [← Bool.not_eq_true, contains_iff] at hnot
    have heq : a.bytes = r.max := by
      refine BitVec.eq_of_toNat_eq (hmax.antisymm (not_lt.mp fun hlt => hnot ⟨hmin, Or.inl hlt⟩))
    exact Or.inr (Or.inr ⟨fun h0 => hnot ⟨hmin, Or.inr ⟨heq, h0⟩⟩, r, hr, heq⟩)
  rcases exists_range n hn with rfl | rfl | rfl | ⟨r, hr, hmin, hmax⟩
  · have hone : a.bytes = 1 := BitVec.eq_of_toNat_eq (hbounds.2.antisymm hbounds.1)
    simp [AddressV6.isLoopback, hone] at hloopback
  · by_cases hle : a.bytes.toNat ≤ rfc4193.max.toNat
    · exact hrange _ (by decide) hbounds.1 hle
    · refine Or.inl ⟨?_, BitVec.le_def.mpr hbounds.2⟩
      rw [BitVec.le_def]
      exact Nat.succ_le_of_lt (not_le.mp hle)
  · by_cases hle : a.bytes.toNat ≤ ipv6Multicast.max.toNat
    · exact hrange _ (by decide) hbounds.1 hle
    · refine Or.inr (Or.inl ?_)
      rw [BitVec.le_def]
      exact Nat.succ_le_of_lt (not_le.mp hle)
  · exact hrange r hr (hmin ▸ hbounds.1) (hmax ▸ hbounds.2)

theorem contains_eq_false {r : AddressRange}
    (h : a.bytes.toNat < r.min.toNat ∨ r.max.toNat < a.bytes.toNat ∨ a.scopeId ≠ 0 ∧
      ¬ (r.min.toNat ≤ a.bytes.toNat ∧ a.bytes.toNat < r.max.toNat)) :
    r.contains a = false := by
  rw [← Bool.not_eq_true, contains_iff]
  rintro ⟨hmin, hmax⟩
  rcases h with h | h | ⟨hscope, h⟩
  · omega
  · rcases hmax with hmax | ⟨hmax, -⟩
    · omega
    · exact absurd (hmax ▸ h) (lt_irrefl _)
  · rcases hmax with hmax | ⟨-, hzero⟩
    · exact h ⟨hmin, hmax⟩
    · exact hscope hzero

theorem reserved_of_missed (h : Missed a) : Reserved a.bytes := by
  have hnet : ∀ n ∈ Net.reserved, n.base.toNat ≤ a.bytes.toNat →
      a.bytes.toNat ≤ n.last.toNat → Reserved a.bytes := by
    intro n hn hbase hlast
    exact ⟨n, hn, (Net.contains_iff (Net.aligned_of_mem n hn)).mpr ⟨hbase, hlast⟩⟩
  rcases h with ⟨hlow, hhigh⟩ | hlow | ⟨-, r, hr, heq⟩
  · rw [BitVec.le_def] at hlow hhigh
    exact hnet .uniqueLocal (by decide) (le_trans (by decide) hlow) hhigh
  · rw [BitVec.le_def] at hlow
    exact hnet .multicast (by decide) (le_trans (by decide) hlow)
      (Nat.le_of_lt_succ a.bytes.isLt)
  · have hall : ∀ r ∈ all, Reserved r.max := by decide +kernel
    rw [heq]
    exact hall r hr

theorem isLoopback_eq_false (h : 1 < a.bytes.toNat) : a.isLoopback = false := by
  refine decide_eq_false fun heq => ?_
  rw [heq] at h
  exact absurd h (by decide)

theorem reservedAddress_of_missed (h : Missed a) : reservedAddress .raiLiveNetwork a = false := by
  rw [reservedAddress_eq_false_iff]
  rcases h with ⟨hlow, hhigh⟩ | hlow | ⟨hscope, r, hr, heq⟩
  · have hall : ∀ r ∈ all,
        r.max.toNat < (0xfd010000000000000000000000000000 : BitVec 128).toNat ∨
          (0xfdffffffffffffffffffffffffffffff : BitVec 128).toNat < r.min.toNat := by decide
    rw [BitVec.le_def] at hlow hhigh
    refine ⟨isLoopback_eq_false (lt_of_lt_of_le (by decide) hlow), fun r hr => ?_⟩
    rcases hall r hr with hr | hr
    · exact contains_eq_false (Or.inr (Or.inl (hr.trans_le hlow)))
    · exact contains_eq_false (Or.inl (hhigh.trans_lt hr))
  · have hall : ∀ r ∈ all,
        r.max.toNat < (0xff010000000000000000000000000000 : BitVec 128).toNat := by decide
    rw [BitVec.le_def] at hlow
    refine ⟨isLoopback_eq_false (lt_of_lt_of_le (by decide) hlow), fun r hr => ?_⟩
    exact contains_eq_false (Or.inr (Or.inl ((hall r hr).trans_le hlow)))
  · -- the last address of one range is not inside another
    have hall : ∀ x ∈ all, 1 < x.max.toNat ∧
        ∀ r ∈ all, ¬ (r.min.toNat ≤ x.max.toNat ∧ x.max.toNat < r.max.toNat) := by
      decide
    obtain ⟨hone, hinside⟩ := hall r hr
    rw [← heq] at hone hinside
    exact ⟨isLoopback_eq_false hone, fun r' hr' =>
      contains_eq_false (Or.inr (Or.inr ⟨hscope, hinside r' hr'⟩))⟩

/-- **Which reserved addresses are not recognised.** -/
theorem missed_iff : Missed a ↔ Reserved a.bytes ∧ reservedAddress .raiLiveNetwork a = false :=
  ⟨fun h => ⟨reserved_of_missed h, reservedAddress_of_missed h⟩,
    fun h => missed_of_reserved h.1 h.2⟩

/-! ## Peers -/

namespace PeerContainer

/-- An endpoint that may be a peer of the node. -/
def Fit (self : UdpEndpoint) (e : EndpointV6) : Prop :=
  .v6 e ≠ self ∧ e.address.bytes ≠ 0 ∧ ¬ Reserved e.address.bytes

instance decidableFit (self : UdpEndpoint) (e : EndpointV6) : Decidable (Fit self e) :=
  inferInstanceAs (Decidable (_ ∧ _ ∧ _))

/-- No endpoint is in the table that may not be there. -/
def Clean (c : PeerContainer) : Prop := ∀ e ∈ c.peers.endpoints, Fit c.self e

instance decidableClean (c : PeerContainer) : Decidable c.Clean :=
  inferInstanceAs (Decidable (∀ e ∈ _, _))

theorem fit_iff_not_missed {c : PeerContainer} {e : EndpointV6}
    (h : c.notAPeer .raiLiveNetwork e = false) : Fit c.self e ↔ ¬ Missed e.address := by
  rw [notAPeer, Bool.or_eq_false_iff, Bool.or_eq_false_iff] at h
  obtain ⟨⟨hunspecified, hreserved⟩, hself⟩ := h
  rw [missed_iff]
  constructor
  · rintro ⟨-, -, hfit⟩ ⟨hmissed, -⟩
    exact hfit hmissed
  · intro hmissed
    exact ⟨of_decide_eq_false hself, of_decide_eq_false hunspecified,
      fun hr => hmissed ⟨hr, hreserved⟩⟩

end PeerContainer

namespace PeerTable

variable {t : PeerTable} {info : PeerInformation} {e : EndpointV6}

theorem mem_endpoints_insert (h : info.endpoint ∉ t.endpoints) :
    e ∈ (t.insert info).endpoints ↔ e = info.endpoint ∨ e ∈ t.endpoints := by
  have hperm := (Index.perm_insert (t := t.index) h).map PeerInformation.endpoint
  have hinsert : (t.insert info).endpoints =
      (t.index.insert info).entries.map PeerInformation.endpoint :=
    congrArg endpoints (dif_neg h)
  rw [hinsert, hperm.mem_iff]
  exact List.mem_cons

theorem mem_endpoints_modify : e ∈ (t.modify info).endpoints ↔ e ∈ t.endpoints :=
  Index.perm_map_replace.mem_iff

theorem mem_of_mem_endpoints_purge {cutoff : ℕ} (h : e ∈ (t.purge cutoff).endpoints) :
    e ∈ t.endpoints :=
  (List.dropWhile_sublist _).map _ |>.subset h

theorem endpoints_touch (t : PeerTable) (now : EndpointV6 → ℕ) :
    (t.touch now).endpoints = t.endpoints :=
  List.map_map

end PeerTable

namespace PeerContainer

variable {c : PeerContainer}

/-- The call has left the endpoints as they are, or has erased some. -/
def Keeps (c : PeerContainer) (result : Except PeerFault PeerContainer) : Prop :=
  ∀ c', result = .ok c' → c'.self = c.self ∧ ∀ x ∈ c'.peers.endpoints, x ∈ c.peers.endpoints

theorem Keeps.ok {c' : PeerContainer} (hself : c'.self = c.self)
    (h : ∀ x ∈ c'.peers.endpoints, x ∈ c.peers.endpoints) : Keeps c (.ok c') := by
  rintro _ ⟨⟩
  exact ⟨hself, h⟩

theorem Keeps.modify (c : PeerContainer) (info : PeerInformation) :
    Keeps c (.ok { c with peers := c.peers.modify info }) :=
  .ok rfl fun _ hx => PeerTable.mem_endpoints_modify.mp hx

theorem Keeps.refl (c : PeerContainer) : Keeps c (.ok c) := .ok rfl fun _ hx => hx

/-- What `insert` does with an endpoint of version 6. -/
theorem insert_ok (network : RaiNetworks) (c : PeerContainer) (e : EndpointV6)
    (version now : ℕ) :
    ∃ c', (c.insert network (.v6 e) version now).map Prod.snd = .ok c' ∧ c'.self = c.self ∧
      ∀ x, x ∈ c'.peers.endpoints ↔ x ∈ c.peers.endpoints ∨
        x = e ∧ c.notAPeer network e = false ∧ protocolVersionMin ≤ version := by
  rw [insert]
  cases hpeer : c.notAPeer network e with
  | true => exact ⟨c, rfl, rfl, by simp⟩
  | false =>
    by_cases hversion : protocolVersionMin ≤ version
    · rw [if_neg Bool.false_ne_true, if_pos hversion]
      cases hfind : c.peers.index.find? e with
      | some info =>
        have hmem : e ∈ c.peers.endpoints := by
          obtain ⟨hinfo, rfl⟩ := Index.find?_eq_some_iff.mp hfind
          exact List.mem_map_of_mem hinfo
        refine ⟨_, rfl, rfl, fun x => ?_⟩
        rw [PeerTable.mem_endpoints_modify]
        refine ⟨Or.inl, ?_⟩
        rintro (hx | ⟨rfl, -⟩)
        · exact hx
        · exact hmem
      | none =>
        have hnew : e ∉ c.peers.endpoints := Index.find?_eq_none_iff.mp hfind
        refine ⟨_, rfl, rfl, fun x => ?_⟩
        rw [PeerTable.mem_endpoints_insert hnew, or_comm]
        simp [PeerInformation.new, hversion]
    · rw [if_neg Bool.false_ne_true, if_neg hversion]
      exact ⟨c, rfl, rfl, by simp [hversion]⟩

end PeerContainer

/-- The endpoint that a call offers as a peer. -/
def PeerCall.offered : PeerCall → Option EndpointV6
  | .contacted (.v4 bytes port) version _ =>
    if protocolVersionMin ≤ version then some ⟨⟨mappedFromV4Bytes bytes, 0⟩, port⟩ else none
  | .contacted (.v6 e) version _ => if protocolVersionMin ≤ version then some e else none
  | .insert (.v6 e) version _ => if protocolVersionMin ≤ version then some e else none
  | _ => none

namespace PeerContainer

theorem call_cases (c : PeerContainer) (m : PeerCall) :
    (∃ e version c', m.offered = (if protocolVersionMin ≤ version then some e else none) ∧
      c.call .raiLiveNetwork m = .ok c' ∧ c'.self = c.self ∧
      ∀ x, x ∈ c'.peers.endpoints ↔ x ∈ c.peers.endpoints ∨
        x = e ∧ c.notAPeer .raiLiveNetwork e = false ∧ protocolVersionMin ≤ version) ∨
    m.offered = none ∧ Keeps c (c.call .raiLiveNetwork m) := by
  cases m with
  | contacted endpoint version now =>
    left
    cases endpoint with
    | v4 bytes port =>
      obtain ⟨c', hc', h⟩ := insert_ok .raiLiveNetwork c
        ⟨⟨mappedFromV4Bytes bytes, 0⟩, port⟩ version now
      exact ⟨_, version, c', rfl, congrArg c.after hc', h⟩
    | v6 e =>
      obtain ⟨c', hc', h⟩ := insert_ok .raiLiveNetwork c e version now
      exact ⟨e, version, c', rfl, congrArg c.after hc', h⟩
  | insert endpoint version now =>
    cases endpoint with
    | v4 bytes port => exact Or.inr ⟨rfl, .refl c⟩
    | v6 e =>
      left
      obtain ⟨c', hc', h⟩ := insert_ok .raiLiveNetwork c e version now
      exact ⟨e, version, c', rfl, congrArg c.after hc', h⟩
  | reachout endpoint now =>
    refine Or.inr ⟨rfl, ?_⟩
    cases endpoint with
    | v4 bytes port => exact .refl c
    | v6 e =>
      rw [call, reachout]
      split
      · exact .refl c
      · exact .ok rfl fun _ hx => hx
  | repResponse endpoint repAccount weight now =>
    refine Or.inr ⟨rfl, ?_⟩
    cases endpoint with
    | v4 bytes port => rintro _ ⟨⟩
    | v6 e =>
      rw [call, repResponse]
      cases c.peers.index.find? e with
      | none => exact .refl c
      | some info =>
        dsimp only
        split
        · exact .modify c _
        · exact .modify c _
  | repRequest endpoint now =>
    refine Or.inr ⟨rfl, ?_⟩
    cases endpoint with
    | v4 bytes port => rintro _ ⟨⟩
    | v6 e =>
      rw [call, repRequest]
      cases c.peers.index.find? e with
      | none => exact .refl c
      | some info => exact .modify c _
  | purgeList cutoff now =>
    refine Or.inr ⟨rfl, .ok rfl fun x hx => ?_⟩
    have hpurged : x ∈ (c.peers.purge cutoff).endpoints :=
      PeerTable.endpoints_touch (c.peers.purge cutoff) now ▸ hx
    exact PeerTable.mem_of_mem_endpoints_purge hpurged

theorem self_call {c c' : PeerContainer} {m : PeerCall}
    (h : c.call .raiLiveNetwork m = .ok c') : c'.self = c.self := by
  rcases call_cases c m with ⟨e, version, d, -, hd, hself, -⟩ | ⟨-, hkeeps⟩
  · obtain rfl := Except.ok.inj (hd.symm.trans h)
    exact hself
  · exact (hkeeps c' h).1

/-- The call does not offer an address that is missed, unless it is the node's own. -/
def Allowed (self : UdpEndpoint) (m : PeerCall) : Prop :=
  ∀ e ∈ m.offered, .v6 e ≠ self → ¬ Missed e.address

theorem bytes_ne_zero_of_missed {a : AddressV6} (h : Missed a) : a.bytes ≠ 0 := by
  intro hzero
  obtain ⟨n, hn, hcontains⟩ := reserved_of_missed h
  have hall : ∀ n ∈ Net.reserved, ¬ n.Contains 0 := by decide +kernel
  exact hall n hn (hzero ▸ hcontains)

theorem notAPeer_of_missed {c : PeerContainer} {e : EndpointV6} (h : Missed e.address)
    (hself : .v6 e ≠ c.self) : c.notAPeer .raiLiveNetwork e = false := by
  rw [notAPeer, Bool.or_eq_false_iff, Bool.or_eq_false_iff]
  exact ⟨⟨decide_eq_false (bytes_ne_zero_of_missed h), reservedAddress_of_missed h⟩,
    decide_eq_false hself⟩

theorem allowed_iff {c : PeerContainer} (hclean : c.Clean) (m : PeerCall) :
    Allowed c.self m ↔ ∀ c', c.call .raiLiveNetwork m = .ok c' → c'.Clean := by
  rcases call_cases c m with ⟨e, version, c', hoffered, hc', hself, hmem⟩ | ⟨hoffered, hkeeps⟩
  · have hclean' : c'.Clean ↔
        (c.notAPeer .raiLiveNetwork e = false → protocolVersionMin ≤ version →
          Fit c.self e) := by
      rw [Clean, hself]
      constructor
      · exact fun h hpeer hversion => h e ((hmem e).mpr (Or.inr ⟨rfl, hpeer, hversion⟩))
      · intro h x hx
        rcases (hmem x).mp hx with hx | ⟨rfl, hpeer, hversion⟩
        · exact hclean x hx
        · exact h hpeer hversion
    have hnext : (∀ d, c.call .raiLiveNetwork m = .ok d → d.Clean) ↔ c'.Clean := by
      rw [hc']
      exact ⟨fun h => h c' rfl, fun h d hd => Except.ok.inj hd ▸ h⟩
    rw [hnext, hclean', Allowed, hoffered]
    by_cases hversion : protocolVersionMin ≤ version
    · rw [if_pos hversion]
      constructor
      · intro h hpeer _
        refine (fit_iff_not_missed hpeer).mpr (h e rfl fun heq => ?_)
        simp [notAPeer, heq] at hpeer
      · rintro h _ ⟨⟩ hne hmissed
        have hpeer := notAPeer_of_missed hmissed hne
        exact (fit_iff_not_missed hpeer).mp (h hpeer hversion) hmissed
    · rw [if_neg hversion]
      exact iff_of_true (fun e he => by cases he) fun _ h => absurd h hversion
  · rw [Allowed, hoffered]
    refine iff_of_true (fun e he => by cases he) fun c' hc' => ?_
    obtain ⟨hself, hsub⟩ := hkeeps c' hc'
    intro x hx
    rw [hself]
    exact hclean x (hsub x hx)

end PeerContainer

/-- **When the table holds no reserved address.** On the live network every endpoint in the table
is fit throughout, if and only if no call offers an address that is missed. -/
theorem peers_clean_iff (self : UdpEndpoint) (calls : List PeerCall) :
    Machine.Always (call .raiLiveNetwork) Clean (.new self) calls ↔
      Machine.Guarded (call .raiLiveNetwork)
        (fun _ m => Allowed self m) (.new self) calls := by
  refine Machine.always_iff_guarded (I := fun c => c.self = self) ?_ ?_ rfl ?_ calls
  · intro c m c' hself hc'
    exact (self_call hc').trans hself
  · rintro c m rfl hclean
    exact allowed_iff hclean m
  · intro e he
    cases he

/-- A node is contacted from `fd01::1`. -/
theorem reserved_address_contacts :
    Reserved 0xfd010000000000000000000000000001 ∧
      ¬ Machine.Always (call .raiLiveNetwork) Clean
        (.new (.v6 ⟨⟨1, 0⟩, 7075⟩))
        [.contacted (.v6 ⟨⟨0xfd010000000000000000000000000001, 0⟩, 7075⟩) 7 0] := by
  decide +kernel

end RaiBlocks
