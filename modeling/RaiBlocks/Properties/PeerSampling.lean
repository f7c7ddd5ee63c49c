import RaiBlocks.Node.Peers

/-!
# Samples of the peers

Drawing may find the same peer again and again, so the first loop of `random_set` may end early.
The second loop may meet peers that were drawn before. Neither of them takes more peers
than asked for, and where the second one stops early, no more were asked for.
-/

namespace RaiBlocks

open Foundation

namespace EndpointSet

variable {s : EndpointSet} {e x : EndpointV6}

theorem mem_insert : x ∈ (s.insert e).elems ↔ x = e ∨ x ∈ s.elems := List.mem_insert_iff

theorem size_insert_le (s : EndpointSet) (e : EndpointV6) : (s.insert e).size ≤ s.size + 1 := by
  by_cases h : e ∈ s.elems
  · have hsize : (s.insert e).size = s.size := List.length_insert_of_mem h
    omega
  · have hsize : (s.insert e).size = s.size + 1 := List.length_insert_of_not_mem h
    omega

end EndpointSet

namespace PeerContainer

variable {c : PeerContainer} {countA : ℕ} {s : EndpointSet}

/-- The set has known peers, and not too many. -/
structure Sample (c : PeerContainer) (countA : ℕ) (s : EndpointSet) : Prop where
  known : ∀ e ∈ s.elems, e ∈ c.peers.endpoints
  size_le : s.size ≤ countA

theorem Sample.empty : Sample c countA .empty where
  known := by simp [EndpointSet.empty]
  size_le := Nat.zero_le countA

theorem Sample.insert (hs : Sample c countA s) (hlt : s.size < countA) {info : PeerInformation}
    (hinfo : info ∈ c.peers.index.entries) : Sample c countA (s.insert info.endpoint) where
  known := by
    intro e he
    rcases EndpointSet.mem_insert.mp he with rfl | he
    · exact List.mem_map_of_mem hinfo
    · exact hs.known e he
  size_le := (s.size_insert_le info.endpoint).trans hlt

/-! ## Drawing -/

theorem drawPeer_eq (draws : Draws c.peers.sequence.length) (hne : c.peers.sequence ≠ []) {i : ℕ}
    (hi : i + 1 < 2 ^ 31) (s : EndpointSet) :
    ∃ info ∈ c.peers.index.entries,
      c.drawPeer draws (i, s) = .ok (i + 1, s.insert info.endpoint) := by
  have hpos : 0 < c.peers.sequence.length := List.length_pos_iff.mpr hne
  have hlt : draws.index i < c.peers.sequence.length := by
    have hle := (draws.le i).trans (Nat.mod_le _ _)
    omega
  refine ⟨c.peers.sequence[draws.index i], c.peers.perm.subset (List.getElem_mem hlt), ?_⟩
  rw [drawPeer, List.getElem?_eq_getElem hlt]
  exact if_pos hi

theorem drawPeers_ok (draws : Draws c.peers.sequence.length) (hcount : countA < 2 ^ 30) :
    ∃ s, c.drawPeers draws countA = .ok s ∧ Sample c countA s := by
  rw [drawPeers]
  by_cases hempty : c.peers.sequence.isEmpty
  · exact ⟨.empty, if_pos hempty, .empty⟩
  · have hne : c.peers.sequence ≠ [] := fun h => hempty (List.isEmpty_iff.mpr h)
    have hcutoff : countA * 2 % 2 ^ 64 = countA * 2 := Nat.mod_eq_of_lt (by omega)
    -- the counter goes up to the cutoff, which is less than what an `int` can hold
    have hloop : ∃ k t, whileLoop .outOfFuel (fun s => s.1 < countA * 2 && s.2.size < countA)
        (c.drawPeer draws) (countA * 2) (0, .empty) = .ok t ∧
          (t.1 + k = countA * 2 ∧ Sample c countA t.2) ∧
          (t.1 < countA * 2 && t.2.size < countA) = false := by
      refine whileLoop_total (I := fun k t => t.1 + k = countA * 2 ∧ Sample c countA t.2)
        (fun k t hI hcond => ?_) (countA * 2) (countA * 2) (0, .empty) le_rfl
        ⟨Nat.zero_add _, .empty⟩
      obtain ⟨i, s⟩ := t
      obtain ⟨hk, hs⟩ : i + k = countA * 2 ∧ Sample c countA s := hI
      obtain ⟨hi, hlt⟩ : i < countA * 2 ∧ s.size < countA := by simpa using hcond
      have hint : i + 1 < 2 ^ 31 := by omega
      obtain ⟨info, hinfo, hdraw⟩ := drawPeer_eq draws hne hint s
      refine ⟨k - 1, _, hdraw, by omega, ?_, hs.insert hlt hinfo⟩
      change i + 1 + (k - 1) = countA * 2
      omega
    obtain ⟨k, t, ht, ⟨-, hsample⟩, -⟩ := hloop
    refine ⟨t.2, ?_, hsample⟩
    rw [if_neg hempty, hcutoff, ht]
    rfl

/-! ## Filling the remainder -/

/-- After the second loop there are enough peers, or all of the list. -/
theorem fillRemainder_spec {l : List PeerInformation}
    (hl : ∀ info ∈ l, info ∈ c.peers.index.entries) (hs : Sample c countA s) :
    Sample c countA (fillRemainder countA l s) ∧
      (∀ e ∈ s.elems, e ∈ (fillRemainder countA l s).elems) ∧
      ((fillRemainder countA l s).size = countA ∨
        ∀ info ∈ l, info.endpoint ∈ (fillRemainder countA l s).elems) := by
  induction l generalizing s with
  | nil => exact ⟨hs, fun _ he => he, Or.inr (by simp)⟩
  | cons info l ih =>
    obtain ⟨hinfo, hl⟩ := List.forall_mem_cons.mp hl
    rw [fillRemainder]
    by_cases hlt : s.size < countA
    · rw [if_pos hlt]
      obtain ⟨hsample, hkeep, hall⟩ := ih hl (hs.insert hlt hinfo)
      have hinsert : ∀ e, e = info.endpoint ∨ e ∈ s.elems →
          e ∈ (fillRemainder countA l (s.insert info.endpoint)).elems :=
        fun e he => hkeep e (EndpointSet.mem_insert.mpr he)
      refine ⟨hsample, fun e he => hinsert e (Or.inr he), hall.imp_right fun hall => ?_⟩
      exact List.forall_mem_cons.mpr ⟨hinsert _ (Or.inl rfl), hall⟩
    · rw [if_neg hlt]
      exact ⟨hs, fun _ he => he, Or.inl (hs.size_le.antisymm (not_lt.mp hlt))⟩

/-- A sample with enough peers or all of them has the exact size. -/
theorem Sample.size_eq (hs : Sample c countA s)
    (hall : s.size = countA ∨ ∀ info ∈ c.peers.index.entries, info.endpoint ∈ s.elems) :
    s.size = min countA c.peers.endpoints.length := by
  have hle : s.size ≤ c.peers.endpoints.length := (s.nodup.subperm hs.known).length_le
  rcases hall with hfull | hall
  · omega
  · have hsub : c.peers.endpoints ⊆ s.elems := by
      intro e he
      obtain ⟨info, hinfo, rfl⟩ := List.mem_map.mp he
      exact hall info hinfo
    have hge : c.peers.endpoints.length ≤ s.size :=
      (c.peers.index.unique.subperm hsub).length_le
    have hcount := hs.size_le
    omega

theorem randomSet_ok (draws : Draws c.peers.sequence.length) (hcount : countA < 2 ^ 30) :
    ∃ s, c.randomSet draws countA = .ok s ∧ Sample c countA s ∧
      s.size = min countA c.peers.endpoints.length := by
  obtain ⟨s, hs, hsample⟩ := drawPeers_ok draws hcount
  obtain ⟨hsample', -, hall⟩ := fillRemainder_spec (fun _ h => h) hsample
  refine ⟨_, ?_, hsample', hsample'.size_eq hall⟩
  rw [randomSet, hs, ok_bind]

/-! ## Storing -/

/-- The endpoints are stored from index `j` on, the others stay. -/
theorem store_eq {l : List EndpointV6} {j : ℕ} (h : j + l.length ≤ 8)
    (target : Vector UdpEndpoint 8) :
    ∃ stored, store l j target = .ok stored ∧
      stored.toList = target.toList.take j ++ l.map .v6 ++ target.toList.drop (j + l.length) := by
  induction l generalizing j target with
  | nil => exact ⟨target, rfl, by simp⟩
  | cons e l ih =>
    rw [List.length_cons] at h
    have hj : j < 8 := by omega
    obtain ⟨stored, hstored, hlist⟩ := ih (j := j + 1) (by omega) (target.set j (.v6 e) hj)
    refine ⟨stored, ?_, ?_⟩
    · rw [store, dif_pos hj, hstored]
    · have htake : (target.toList.set j (.v6 e)).take (j + 1) =
          target.toList.take j ++ [.v6 e] := by
        rw [List.take_add_one, List.take_set_of_le (le_refl j)]
        simp [hj]
      have hdrop : (target.toList.set j (.v6 e)).drop (j + 1 + l.length) =
          target.toList.drop (j + 1 + l.length) :=
        List.drop_set_of_lt (by omega)
      rw [hlist, Vector.toList_set, htake, hdrop]
      simp [Nat.add_assoc, Nat.add_comm 1]

/-- Eight endpoints that are unspecified and have port 0, overwritten from the first on. -/
theorem randomFill_ok (draws : Draws c.peers.sequence.length) (order : SetOrder)
    (targetA : Vector UdpEndpoint 8) :
    ∃ (known : List EndpointV6) (stored : Vector UdpEndpoint 8),
      c.randomFill draws order targetA = .ok stored ∧ known.Nodup ∧
      known.length = min 8 c.peers.endpoints.length ∧ (∀ e ∈ known, e ∈ c.peers.endpoints) ∧
      stored.toList = known.map .v6 ++ List.replicate (8 - known.length) (.v6 ⟨⟨0, 0⟩, 0⟩) := by
  have hbelow : 8 < 2 ^ 30 := by omega
  obtain ⟨s, hs, hsample, hsize⟩ := randomSet_ok draws hbelow
  have hperm := order.perm s
  have hlength : (order.list s).length = s.size := hperm.length_eq
  have hle : 0 + (order.list s).length ≤ 8 := by
    rw [hlength, Nat.zero_add]
    exact hsample.size_le
  obtain ⟨stored, hstored, hlist⟩ := store_eq hle (targetA.map fun _ => .v6 ⟨⟨0, 0⟩, 0⟩)
  refine ⟨order.list s, stored, ?_, hperm.nodup_iff.mpr s.nodup, hlength.trans hsize,
    fun e he => hsample.known e (hperm.mem_iff.mp he), ?_⟩
  · rw [randomFill, hs, ok_bind, if_pos hsample.size_le, hstored]
  · have hfill : (targetA.map fun _ => UdpEndpoint.v6 ⟨⟨0, 0⟩, 0⟩).toList =
        List.replicate 8 (.v6 ⟨⟨0, 0⟩, 0⟩) := by
      rw [Vector.toList_map, List.map_const', Vector.length_toList]
    rw [hlist, hfill, List.take_zero, List.nil_append, List.drop_replicate, Nat.zero_add]

end PeerContainer

/-- **Sampling is exact.** Whatever is drawn and in whatever order the set is run through:
`random_set` returns as many distinct known peers as asked for or as there are, and `random_fill`
stores eight or as many as there are, followed by unspecified endpoints with port 0. -/
theorem random_peers_exact (c : PeerContainer) (draws : Draws c.peers.sequence.length)
    (countA : ℕ) (hcount : countA < 2 ^ 30) (order : SetOrder)
    (targetA : Vector UdpEndpoint 8) :
    (∃ result, c.randomSet draws countA = .ok result ∧ result.elems.Nodup ∧
      result.elems.length = min countA c.peers.endpoints.length ∧
      ∀ e ∈ result.elems, e ∈ c.peers.endpoints) ∧
    ∃ (known : List EndpointV6) (stored : Vector UdpEndpoint 8),
      c.randomFill draws order targetA = .ok stored ∧ known.Nodup ∧
      known.length = min 8 c.peers.endpoints.length ∧ (∀ e ∈ known, e ∈ c.peers.endpoints) ∧
      stored.toList = known.map .v6 ++ List.replicate (8 - known.length) (.v6 ⟨⟨0, 0⟩, 0⟩) := by
  obtain ⟨s, hs, hsample, hsize⟩ := PeerContainer.randomSet_ok draws hcount
  exact ⟨⟨s, hs, s.nodup, hsize, hsample.known⟩, PeerContainer.randomFill_ok draws order targetA⟩

/-- A container with two peers. -/
def PeerContainer.pair : PeerContainer where
  self := .v6 ⟨⟨1, 0⟩, 7075⟩
  peers := (PeerTable.empty.insert (.new ⟨⟨2, 0⟩, 1⟩ 7 0)).insert (.new ⟨⟨3, 0⟩, 1⟩ 7 0)
  attempts := .empty

/-- Three peers are asked for, and the first is drawn every time. -/
theorem random_peers_exact_pair :
    ∃ result, PeerContainer.pair.randomSet ⟨fun _ => 0, fun _ => Nat.zero_le _⟩ 3 = .ok result ∧
      result.elems.length = 2 := by
  obtain ⟨⟨result, hresult, -, hlength, -⟩, -⟩ := random_peers_exact .pair
    ⟨fun _ => 0, fun _ => Nat.zero_le _⟩ 3 (by decide) ⟨EndpointSet.elems, fun _ => .refl _⟩
    (Vector.replicate 8 (.v4 0 0))
  refine ⟨result, hresult, hlength.trans ?_⟩
  decide +kernel

end RaiBlocks
