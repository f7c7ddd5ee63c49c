import RaiBlocks.Bootstrap.BulkPull
import RaiBlocks.Refinement.Reachable
import RaiBlocks.Spec.Chain
import RaiBlocks.Spec.Validity

/-!
# Segments of chains

What the server of a bulk pull sends is a segment of a chain, and the hash that the client expects
runs down this segment.
-/

namespace RaiBlocks

open Foundation Bootstrap RaiBlocks.Lattice

variable {s : BlockStore} {h x e : BlockHash} {l : List BlockHash}

/-- The blocks of the chain `l` above the block `e`. -/
def segment (s : BlockStore) (l : List BlockHash) (e : BlockHash) : List Block :=
  (l.takeWhile fun x => decide (x ≠ e)).filterMap s.blockGet

theorem segment_self (s : BlockStore) (l : List BlockHash) (e : BlockHash) :
    segment s (e :: l) e = [] := by
  unfold segment
  rw [List.takeWhile_cons_of_neg (by simp)]
  rfl

theorem segment_cons {b : Block} (hb : s.blockGet x = some b) (hx : x ≠ e) :
    segment s (x :: l) e = b :: segment s l e := by
  unfold segment
  rw [List.takeWhile_cons_of_pos (by simpa using hx), List.filterMap_cons_some hb]

/-! ## The server -/

namespace BulkPullServer

theorem sendNext_finished (v : BulkPullServer) (hv : v.current = v.endHash) :
    sendNext s v = .ok { v with written := v.written ++ [1], finished := true } := by
  unfold sendNext getNext
  rw [if_neg (not_not.mpr hv)]

theorem sendNext_block (v : BulkPullServer) (hv : v.current ≠ v.endHash) {b : Block}
    (hb : s.blockGet v.current = some b) :
    sendNext s v = .ok { v with
      current := if b.previous ≠ 0 then b.previous else v.endHash
      written := v.written ++ serializeBlock b } := by
  unfold sendNext getNext
  rw [if_pos hv, hb]

theorem loop_finished (v : BulkPullServer) (hv : v.current = v.endHash)
    (hopen : v.finished = false) (n : ℕ) :
    ∃ v', whileLoop .outOfFuel (fun v => !v.finished) (sendNext s) (n + 1) v = .ok v' ∧
      v'.written = v.written ++ [1] := by
  rw [whileLoop_step (by rw [hopen]; rfl) (sendNext_finished v hv), whileLoop_done rfl]
  exact ⟨_, rfl, rfl⟩

/-- **The server sends the segment**, by induction on the chain under its cursor. -/
theorem loop_segment (hc : BlockSet.Chain s.blockGet x l) (he : e = 0 ∨ e ∈ l) :
    ∀ (n : ℕ) (v : BulkPullServer), l.length < n → v.current = x → v.endHash = e →
    v.finished = false →
    ∃ v', whileLoop .outOfFuel (fun v => !v.finished) (sendNext s) n v = .ok v' ∧
      v'.written = v.written ++ ((segment s l e).flatMap serializeBlock ++ [1]) := by
  induction hc with
  | @first x b hb hp =>
    intro n v hn hcur hend hopen
    obtain ⟨n, rfl⟩ : ∃ m, n = m + 2 := ⟨n - 2, by simp at hn; omega⟩
    by_cases hx : x = e
    · obtain ⟨v', hrun, hw⟩ := loop_finished (s := s) v (by rw [hcur, hend, hx]) hopen (n + 1)
      rw [hx, segment_self]
      exact ⟨v', hrun, hw⟩
    · have hstep := sendNext_block (s := s) v (by rw [hcur, hend]; exact hx) (hcur ▸ hb)
      rw [whileLoop_step (by rw [hopen]; rfl) hstep]
      obtain ⟨v', hrun, hw⟩ := loop_finished (s := s) { v with
        current := if b.previous ≠ 0 then b.previous else v.endHash
        written := v.written ++ serializeBlock b } (if_neg (not_not.mpr hp)) hopen n
      refine ⟨v', hrun, hw.trans ?_⟩
      rw [segment_cons hb hx, List.flatMap_cons, List.append_assoc, List.append_assoc]
      rfl
  | @next x b l hb hp hc ih =>
    intro n v hn hcur hend hopen
    obtain ⟨n, rfl⟩ : ∃ m, n = m + 1 := ⟨n - 1, by simp at hn; omega⟩
    by_cases hx : x = e
    · obtain ⟨v', hrun, hw⟩ := loop_finished (s := s) v (by rw [hcur, hend, hx]) hopen n
      rw [hx, segment_self]
      exact ⟨v', hrun, hw⟩
    · have hstep := sendNext_block (s := s) v (by rw [hcur, hend]; exact hx) (hcur ▸ hb)
      rw [whileLoop_step (by rw [hopen]; rfl) hstep]
      have hel : e = 0 ∨ e ∈ l := he.imp_right fun hmem =>
        (List.mem_cons.mp hmem).resolve_left fun heq => hx heq.symm
      obtain ⟨v', hrun, hw⟩ := ih hel n { v with
        current := if b.previous ≠ 0 then b.previous else v.endHash
        written := v.written ++ serializeBlock b } (by simp at hn; omega) (if_pos hp) hend hopen
      refine ⟨v', hrun, hw.trans ?_⟩
      rw [segment_cons hb hx, List.flatMap_cons, List.append_assoc, List.append_assoc]

end BulkPullServer

/-! ## The client -/

namespace BulkPullClient

variable {p : NodeEnv}

/-- What one block does to the hash that is expected. -/
def follow (p : NodeEnv) (expected : BlockHash) (b : Block) : BlockHash :=
  if b.hash p.toEnv = expected then b.previous else expected

theorem receiveBlock_block (c : BulkPullClient) {b : Block} (hw : b.Worked p) {rest : List UInt8}
    (hinput : c.input = serializeBlock b ++ rest) :
    receiveBlock p c = .ok { c with
      input := rest
      expected := follow p c.expected b
      added := c.added ++ [b] } := by
  have htype : receivedType p { c with input := b.serialize ++ rest } b.type = { c with
      input := rest
      expected := follow p c.expected b
      added := c.added ++ [b] } := by
    have hbytes := Reader.bytes_append b.serialize rest
    have hread := deserializeBlock_serialize b []
    rw [List.append_nil] at hread
    unfold receivedType
    rw [← length_serialize, hbytes]
    dsimp only
    unfold receivedBlock
    rw [hread]
    dsimp only
    rw [if_neg (by rw [hw]; exact Bool.false_ne_true)]
    rfl
  unfold receiveBlock
  rw [hinput, serializeBlock, List.cons_append]
  cases b with
  | sendBlock b => exact congrArg Except.ok htype
  | receiveBlock b => exact congrArg Except.ok htype
  | openBlock b => exact congrArg Except.ok htype
  | changeBlock b => exact congrArg Except.ok htype
  | stateBlock b => exact congrArg Except.ok htype

/-- **The client reads what the server wrote**, by induction on the blocks. -/
theorem loop_blocks (blocks : List Block) (hw : ∀ b ∈ blocks, b.Worked p) :
    ∀ (n : ℕ) (c : BulkPullClient), blocks.length < n → c.receiving = true →
    c.input = blocks.flatMap serializeBlock ++ [1] →
    ∃ c', whileLoop .outOfFuel (fun c => c.receiving) (receiveBlock p) n c = .ok c' ∧
      c'.pull = c.pull ∧ c'.added = c.added ++ blocks ∧
      c'.expected = blocks.foldl (follow p) c.expected := by
  induction blocks with
  | nil =>
    intro n c hn hopen hinput
    obtain ⟨n, rfl⟩ : ∃ m, n = m + 1 := ⟨n - 1, by simp at hn; omega⟩
    have hstep : receiveBlock p c = .ok { c with input := [], receiving := false } := by
      unfold receiveBlock
      rw [hinput]
      rfl
    rw [whileLoop_step hopen hstep, whileLoop_done rfl]
    exact ⟨_, rfl, rfl, (List.append_nil _).symm, rfl⟩
  | cons b blocks ih =>
    intro n c hn hopen hinput
    obtain ⟨n, rfl⟩ : ∃ m, n = m + 1 := ⟨n - 1, by simp at hn; omega⟩
    rw [List.flatMap_cons, List.append_assoc] at hinput
    rw [whileLoop_step hopen (receiveBlock_block c (hw b List.mem_cons_self) hinput)]
    obtain ⟨c', hrun, hpull, hadded, hexp⟩ := ih (fun y hy => hw y (List.mem_cons_of_mem _ hy)) n
      { c with
        input := blocks.flatMap serializeBlock ++ [1]
        expected := follow p c.expected b
        added := c.added ++ [b] } (by simp at hn; omega) hopen rfl
    exact ⟨c', hrun, hpull, hadded.trans (List.append_assoc _ _ _), hexp⟩

end BulkPullClient

/-! ## The exchange -/

section Exchange

variable {p : NodeEnv} {U : Set Block} {Λ : Lattice p.toEnv}

/-- The end of a pull that begins at a block with the given entry: nothing, or a block
of its account that is not above it. -/
def EndOf (Λ : Lattice p.toEnv) (e : BlockHash) (ey : Entry) : Prop :=
  e = 0 ∨ ∃ ee, Λ.entry e = some ee ∧ ee.owner = ey.owner ∧ ee.height ≤ ey.height

/-- An end that is not the block itself is an end of the block before. -/
theorem EndOf.before {ex q : Entry} (hend : EndOf Λ e ex) (hx : Λ.entry x = some ex) (hne : x ≠ e)
    (hfol : ex.Follows q) : EndOf Λ e q := by
  rcases hend with h0 | ⟨ee, hee, hown, hle⟩
  · exact Or.inl h0
  · refine Or.inr ⟨ee, hee, hown.trans hfol.owner.symm, ?_⟩
    have hheight := hfol.height
    by_contra hlt
    exact hne (height_inj _ ex hx _ ee hee hown.symm (by omega))

theorem EndOf.eq_zero {ex : Entry} (hend : EndOf Λ e ex) (hx : Λ.entry x = some ex) (hne : x ≠ e)
    (hf : ex.First) : e = 0 := by
  rcases hend with h0 | ⟨ee, hee, hown, hle⟩
  · exact h0
  · have hpos := height_pos hee
    have hone := hf.height
    exact absurd (height_inj _ ex hx _ ee hee hown.symm (by omega)) hne

theorem follow_stored {ex : Entry} (hx : Λ.entry x = some ex) (y : BlockHash) :
    BulkPullClient.follow p y ex.block = if x = y then ex.block.previous else y := by
  unfold BulkPullClient.follow
  rw [Λ.hash_eq hx]

/-- **What the client expects runs down the chain.** It starts at `y`, moves when the
block `y` arrives and is `e` when all blocks above `e` have arrived. -/
theorem follow_segment (hr : Refines U s Λ) {ex : Entry} (hc : Λ.blocks.Chain x l)
    (hx : Λ.entry x = some ex) : ∀ y ey, Λ.entry y = some ey → y ∈ l → EndOf Λ e ey →
    (segment s l e).foldl (BulkPullClient.follow p) y = e := by
  have hget : ∀ {h e}, Λ.entry h = some e → s.blockGet h = some e.block := fun he => by
    rw [hr.blockGet_eq]
    exact blocks_some he
  refine chain_induction (P := fun _ _ l => ∀ y ey, Λ.entry y = some ey → y ∈ l →
    EndOf Λ e ey → (segment s l e).foldl (BulkPullClient.follow p) y = e) ?_ ?_ hc hx
  · intro x ex hx hf y ey hy hmem hend
    obtain rfl := List.mem_singleton.mp hmem
    obtain rfl := Option.some.inj (hx.symm.trans hy)
    by_cases hne : y = e
    · rw [hne, segment_self]
      rfl
    · rw [segment_cons (hget hx) hne, List.foldl_cons, follow_stored hx, if_pos rfl, hf.previous]
      exact (hend.eq_zero hx hne hf).symm
  · intro x ex q l hx hq hfol hc ih y ey hy hmem hend
    by_cases hne : x = e
    · -- the server sends nothing, so the pull has to begin at its end
      rw [hne, segment_self]
      subst hne
      rcases hend with h0 | ⟨ee, hee, hown, hle⟩
      · exact absurd h0 (Λ.ne_zero hx)
      · obtain ⟨ey', hy', hown', hle'⟩ :=
          (mem_chain (.next (blocks_some hx) (Λ.ne_zero hq) hc) hx).mp hmem
        obtain rfl := Option.some.inj (hx.symm.trans hee)
        obtain rfl := Option.some.inj (hy.symm.trans hy')
        exact height_inj _ ey hy _ ex hx hown' (by omega)
    · rw [segment_cons (hget hx) hne, List.foldl_cons, follow_stored hx]
      by_cases hxy : x = y
      · subst hxy
        obtain rfl := Option.some.inj (hx.symm.trans hy)
        rw [if_pos rfl]
        obtain ⟨t, rfl⟩ := chain_eq_cons hc
        exact ih _ q hq List.mem_cons_self (hend.before hx hne hfol)
      · rw [if_neg hxy]
        exact ih y ey hy ((List.mem_cons.mp hmem).resolve_left fun heq => hxy heq.symm) hend

theorem length_flatMap_serialize (blocks : List Block) :
    blocks.length ≤ (blocks.flatMap serializeBlock).length := by
  induction blocks with
  | nil => exact le_rfl
  | cons b blocks ih =>
    rw [List.flatMap_cons, List.length_append, serializeBlock, List.length_cons, List.length_cons]
    omega

theorem mem_segment {b : Block} (hb : b ∈ segment s l e) : ∃ x, s.blockGet x = some b := by
  obtain ⟨x, _, hx⟩ := List.mem_filterMap.mp hb
  exact ⟨x, hx⟩

/-- The client takes in a segment that the server has sent. -/
theorem BulkPullClient.run_segment (hwork : ∀ h b, s.blockGet h = some b → b.Worked p)
    (pull : PullInfo) :
    ∃ c, run p (request pull ((segment s l e).flatMap serializeBlock ++ [1])) = .ok c ∧
      c.pull = pull ∧ c.added = segment s l e ∧
      c.expected = (segment s l e).foldl (follow p) pull.head := by
  have hlen := length_flatMap_serialize (segment s l e)
  refine loop_blocks (segment s l e) ?_ _ (request pull _) ?_ rfl rfl
  · intro b hb
    obtain ⟨x, hx⟩ := mem_segment hb
    exact hwork x b hx
  · change _ < ((segment s l e).flatMap serializeBlock ++ [1]).length + 1
    rw [List.length_append]
    omega

/-! ### Where the server begins -/

variable {a : Account} {info : AccountInfo}

theorem BulkPullServer.setCurrentEnd_known (hass : HashAssumptions p.toEnv U) (hr : Refines U s Λ)
    (hi : s.accountGet a = some info) {ey : Entry} (hend : EndOf Λ e ey) (hown : ey.owner = a) :
    setCurrentEnd s a e = .ok { current := info.head, endHash := e } := by
  unfold setCurrentEnd
  rw [hr.blocks.blockExists, hi]
  rcases hend with rfl | ⟨ee, hee, howns, _⟩
  · rw [show Λ.entry 0 = none from Λ.entry_zero]
    rfl
  · rw [hee]
    change (if e ≠ 0 then _ else _) = _
    rw [if_pos (Λ.ne_zero hee)]
    change (Ledger.account s e >>= _) = _
    rw [hr.blocks.account hass hr.frontiers hr.blocksInfo hee, ok_bind, howns, hown, if_pos rfl]
    rfl

/-- For an unknown account, and for an end that belongs to another one, the server
begins where it ends. -/
theorem BulkPullServer.setCurrentEnd_foreign (hass : HashAssumptions p.toEnv U)
    (hr : Refines U s Λ) (hno : s.accountGet a = none ∨
      s.blockExists e = true ∧ ¬ BlockSet.Owner s.blockGet e a) :
    ∃ z, setCurrentEnd s a e = .ok { current := z, endHash := z } := by
  unfold setCurrentEnd
  cases hi : s.accountGet a with
  | none => exact ⟨_, rfl⟩
  | some info =>
    rw [hi] at hno
    obtain ⟨hstored, hother⟩ := hno.resolve_left (Option.some_ne_none info)
    rw [hstored]
    rw [hr.blocks.blockExists] at hstored
    obtain ⟨ee, hee⟩ := Option.isSome_iff_exists.mp hstored
    change ∃ z, (if e ≠ 0 then _ else _) = _
    rw [if_pos (Λ.ne_zero hee)]
    change ∃ z, (Ledger.account s e >>= _) = _
    rw [hr.blocks.account hass hr.frontiers hr.blocksInfo hee, ok_bind, if_neg ?_]
    · exact ⟨_, rfl⟩
    · intro heq
      rw [hr.blockGet_eq] at hother
      exact hother (owner_iff.mpr ⟨ee, hee, heq⟩)

end Exchange

namespace Sample

/-- The sample with work that always passes. -/
def nodeEnv : NodeEnv where
  toEnv := env
  workValue _ _ := BitVec.allOnes 64

theorem worked (b : Block) : b.Worked nodeEnv := by
  have hvalue : ¬ BitVec.allOnes 64 < nodeEnv.publishThreshold := by decide
  exact decide_eq_false hvalue

end Sample

end RaiBlocks
