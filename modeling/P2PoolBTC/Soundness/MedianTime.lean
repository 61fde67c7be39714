import P2PoolBTC.Soundness.ForkCalls

/-! # Median time past

The window of a branch is the launch anchor and the times of its ten newest blocks. A new block is later
than the median of its parent, so the number of times below that median never grows and the median
never falls. The anchor stays in the window for good: on a long branch it stands where the time of an
eleventh block would stand in Bitcoin's rule.
-/

namespace P2PoolBTC.Soundness

open Math Std Model.Core Model.Node ForkChainStore

variable {lib : ForkPrimitives} {branch : Branch} {anchor : U64}

/-- The times of a branch, newest first. -/
def timesOf (branch : Branch) : List U64 := branch.map fun entry => entry.2.block.header.time.setWidth 64

/-- How many times are earlier than a given one. -/
def earlier (times : List U64) (bound : ℕ) : ℕ := times.countP fun time => time.toNat < bound

section Positions

variable {times : List U64} {position : ℕ}

@[simp] theorem earlier_cons (time : U64) (times : List U64) (bound : ℕ) :
    earlier (time :: times) bound = earlier times bound + if time.toNat < bound then 1 else 0 := by
  simp [earlier, List.countP_cons]

private theorem earlier_append (first second : List U64) (bound : ℕ) :
    earlier (first ++ second) bound = earlier first bound + earlier second bound :=
  List.countP_append

private theorem earlier_take_le (times : List U64) (bound : ℕ) {fewer more : ℕ} (le : fewer ≤ more) :
    earlier (times.take fewer) bound ≤ earlier (times.take more) bound :=
  (List.take_prefix_take_left le).sublist.countP_le

/-- The time at a position in increasing order. -/
theorem le_getD_sortBy_iff (inside : position < times.length) (bound : ℕ) :
    bound ≤ ((sortBy compare times).getD position 0).toNat ↔ earlier times bound ≤ position := by
  have within : position < (sortBy compare times).length := by rwa [length_sortBy]
  rw [List.getD_eq_getElem _ _ within]
  exact le_rank_getElem_sortBy compare (fun _ _ => compare_isLE.mp) within bound

theorem le_medianTime_iff (nonempty : times ≠ []) (bound : ℕ) :
    bound ≤ (medianTime times).toNat ↔ earlier times bound ≤ times.length / 2 :=
  le_getD_sortBy_iff (Nat.div_lt_self (List.length_pos_iff.mpr nonempty) (by decide)) bound

end Positions

/-! ## The median never falls -/

section Monotone

variable {config : ForkChainConfig} {rest : Branch} {median : U64}

theorem medianOn_eq_ok : medianOn config branch = .ok median ↔
    ∃ anchor, config.launchAnchor = .ok anchor ∧ medianTime (anchor :: (timesOf branch).take 10) = median := by
  simp only [medianOn, except_bind_eq_ok, timesOf, List.map_take, pure, Except.pure, Except.ok.injEq]

/-- A time after the median leaves no more times below the median than there were. -/
theorem medianTime_le_of_later {times : List U64} {time : U64} (later : medianTime (anchor :: times.take 10) < time) :
    medianTime (anchor :: times.take 10) ≤ medianTime (anchor :: (time :: times).take 10) := by
  rw [BitVec.lt_def] at later
  have before := (le_medianTime_iff (List.cons_ne_nil anchor (times.take 10)) _).mp le_rfl
  rw [BitVec.le_def, le_medianTime_iff (List.cons_ne_nil _ _)]
  have fewer := earlier_take_le times (medianTime (anchor :: times.take 10)).toNat (show 9 ≤ 10 by decide)
  simp only [List.take_succ_cons, earlier_cons, List.length_cons, List.length_take] at before ⊢
  rw [if_neg (by omega : ¬ time.toNat < _)]
  omega

theorem Admitted.later {nowUnix : U64} {node : BlockNode} (admitted : Admitted lib config branch nowUnix node)
    (launch : config.launchAnchor = .ok anchor) :
    medianTime (anchor :: (timesOf branch).take 10) < node.block.header.time.setWidth 64 := by
  obtain ⟨median, past, later⟩ := admitted.median
  obtain ⟨anchor', launch', rfl⟩ := medianOn_eq_ok.mp past
  obtain rfl := Except.ok.inj (launch'.symm.trans launch)
  exact later

theorem ValidBranch.anchor_le (valid : ValidBranch lib config branch) (launch : config.launchAnchor = .ok anchor) :
    anchor ≤ medianTime (anchor :: (timesOf branch).take 10) := by
  induction valid with
  | nil =>
    change anchor ≤ medianTime [anchor]
    simp [medianTime, sortBy]
  | cons hashed linked admitted valid ih =>
    have grows := medianTime_le_of_later (admitted.later launch)
    rw [BitVec.le_def] at ih grows ⊢
    exact ih.trans grows

private theorem ValidBranch.anchor_lt (valid : ValidBranch lib config branch)
    (launch : config.launchAnchor = .ok anchor) {time : U64} (member : time ∈ timesOf branch) : anchor < time := by
  induction valid with
  | nil => cases member
  | cons hashed linked admitted valid ih =>
    have later := admitted.later launch
    rcases List.mem_cons.mp member with rfl | deeper
    · have least := valid.anchor_le launch
      rw [BitVec.lt_def] at later ⊢
      exact Nat.lt_of_le_of_lt (BitVec.le_def.mp least) later
    · exact ih deeper

/-- An anchor before some block is the second before the launch. -/
theorem launchAnchor_eq {time : U32} (launch : config.launchAnchor = .ok anchor)
    (later : anchor < time.setWidth 64) :
    (anchor.toNat : ℤ) = config.manifest.config.launchTimestampUtc.timestamp - 1 := by
  have bound := time.isLt
  rw [BitVec.lt_def, BitVec.toNat_setWidth_of_le (by decide)] at later
  simp only [ForkChainConfig.launchAnchor] at launch
  split_ifs at launch with started
  swap
  · cases launch
  obtain rfl := Except.ok.inj launch
  have fits : (saturateI64 (config.manifest.config.launchTimestampUtc.timestamp - 1)).toNat < 2 ^ 64 := by
    unfold saturateI64
    omega
  rw [BitVec.toNat_ofNat, Nat.mod_eq_of_lt fits] at later ⊢
  rw [Int.toNat_of_nonneg started]
  unfold saturateI64 at later started ⊢
  omega

end Monotone

/-! ## Bitcoin's rule -/

section Bitcoin

variable {config : ForkChainConfig}

/-- Bitcoin's median time past: the middle of the times of the eleven newest blocks. -/
def bitcoinMedianTime (branch : Branch) : U64 := medianTime ((timesOf branch).take 11)

/-- The times of the ten newest blocks in increasing order. -/
def nearestTime (branch : Branch) (position : ℕ) : U64 :=
  (sortBy compare ((timesOf branch).take 10)).getD position 0

/-- The time of the eleventh newest block. -/
def eleventhTime (branch : Branch) : U64 := (timesOf branch).getD 10 0

theorem le_nearestTime_iff {position : ℕ} (inside : position < 10) (long : 11 ≤ branch.length) (bound : ℕ) :
    bound ≤ (nearestTime branch position).toNat ↔ earlier ((timesOf branch).take 10) bound ≤ position := by
  apply le_getD_sortBy_iff
  rw [List.length_take, timesOf, List.length_map]
  omega

/-- Since no time is before the anchor, the median of the window is the fifth of the ten nearest times. -/
theorem ValidBranch.medianTime_eq (valid : ValidBranch lib config branch) (launch : config.launchAnchor = .ok anchor)
    (long : 11 ≤ branch.length) : medianTime (anchor :: (timesOf branch).take 10) = nearestTime branch 4 := by
  apply BitVec.eq_of_toNat_eq
  apply eq_of_forall_le_iff
  intro bound
  have length : ((timesOf branch).take 10).length = 10 := by
    rw [List.length_take, timesOf, List.length_map]
    omega
  rw [le_medianTime_iff (List.cons_ne_nil _ _), le_nearestTime_iff (by decide) long, earlier_cons, List.length_cons,
    length]
  split_ifs with before
  · omega
  · have none : earlier ((timesOf branch).take 10) bound = 0 := by
      rw [earlier, List.countP_eq_zero]
      intro time member
      have later := valid.anchor_lt launch (List.mem_of_mem_take member)
      rw [BitVec.lt_def] at later
      simp only [decide_eq_true_eq]
      omega
    omega

/-- The median of eleven times in terms of the ten nearest ones and the eleventh. -/
theorem bitcoinMedianTime_eq (long : 11 ≤ branch.length) : (bitcoinMedianTime branch).toNat =
    max (nearestTime branch 4).toNat (min (eleventhTime branch).toNat (nearestTime branch 5).toNat) := by
  have inside : 10 < (timesOf branch).length := by
    rw [timesOf, List.length_map]
    omega
  have split : (timesOf branch).take 11 = (timesOf branch).take 10 ++ [eleventhTime branch] := by
    rw [List.take_add_one, List.getElem?_eq_getElem inside, eleventhTime, List.getD_eq_getElem _ _ inside]
    rfl
  have length : ((timesOf branch).take 10).length = 10 := by
    rw [List.length_take]
    omega
  have nonempty : (timesOf branch).take 11 ≠ [] := by
    rw [split]
    exact List.append_ne_nil_of_right_ne_nil _ (List.cons_ne_nil _ _)
  apply eq_of_forall_le_iff
  intro bound
  have fifth := le_nearestTime_iff (show 4 < 10 by decide) long bound
  have sixth := le_nearestTime_iff (show 5 < 10 by decide) long bound
  rw [bitcoinMedianTime, le_medianTime_iff nonempty, split, earlier_append, List.length_append, length, earlier_cons]
  simp only [earlier, List.countP_nil, List.length_singleton] at fifth sixth ⊢
  split_ifs <;> omega

end Bitcoin

/-! ## A chain of coinbase blocks

Real blocks of one coinbase each on the sample activation. The second block is far ahead of the others. -/

namespace CoinbaseChain

open ForkSample (digestOf inheritedTip coinbaseOf serializeBlock)

/-- What differs between the blocks of a chain; the transaction identifier is also the Merkle root. -/
structure Mined where
  time : U32
  bits : U32
  nonce : U32
  txid : ℕ
  hash : ℕ

def coinbaseAt (height : ℕ) : Transaction := coinbaseOf [1, UInt8.ofNat height] [0x51] 5000000000

/-- The blocks of a chain from a height on. -/
def blocksFrom : ℕ → Digest → List Mined → List Block
  | _, _, [] => []
  | height, previous, mined :: rest =>
    { header :=
        { version := 0x20000000, prevBlockhash := previous, merkleRoot := digestOf mined.txid
          time := mined.time, bits := mined.bits, nonce := mined.nonce }
      txdata := [coinbaseAt height] } :: blocksFrom (height + 1) (digestOf mined.hash) rest

def blocks (chain : List Mined) : List Block := blocksFrom 101 inheritedTip chain

def library (chain : List Mined) : ForkPrimitives := .ofTables {
  activations := [(ForkSample.activation, ForkSample.activationId)]
  txids := ((blocks chain).flatMap Block.txdata).zip (chain.map fun mined => hexText 64 mined.txid)
  headerHashes := ((blocks chain).map Block.header).zip (chain.map fun mined => hexText 64 mined.hash)
  merkleRoots := chain.map fun mined => ([digestOf mined.txid], hexText 64 mined.txid)
  commitments := blocks chain
  blocks := (blocks chain).map fun block => (serializeBlock block, block) }

def config : ForkChainConfig := { ForkSample.config with transactionUpgrade := none }

/-- The blocks of a chain submitted in order. -/
def submissions (chain : List Mined) (now : U64) : List ForkOp :=
  (blocks chain).map fun block => .block (hexEncode (serializeBlock block)) now

/-- The second block is later than all others. -/
def outlier : List Mined := [
  ⟨1783210200, 0x207fffff, 3, 0x8f1f552505956df4305e283b4b29b6ebae07267f6fc048bc87cd88744599d9ba,
    0x4dd6f0dfc3c40a5e966ef29d64afc978e24609b69ce97091bf53ee22734bf905⟩,
  ⟨1783217200, 0x207fffff, 3, 0x98c6b1d03fd00e9f87fb6c7170dd09203472797e553a5dfdc236833491a3a262,
    0xb9821f2f638f8bea596fe8eaced227fe1434d804220f8e6358b0e3e08240fc09⟩,
  ⟨1783210800, 0x201fffff, 9, 0x86226e458147aecb03941c34ad32cdbfa3dda5c7dfc9ae5b69d27249b13bd8bc,
    0xdd8dd351ed057878c2fea4c2a458337c76498770a6904be28eb17b8a2a9e4f19⟩,
  ⟨1783211400, 0x201fffff, 0, 0x2fc9118bd483dec58822861586742a09ebe49c2839dd8f74601a2998075e9394,
    0xf2af2a52e420d9ebd6ac2369d84924dbf6607e0a7ab52c4beaf55d86cc5d3c00⟩,
  ⟨1783212000, 0x201fffff, 19, 0xa7e523869b50cc06fe380532aee468e8ee7299bb10910b5794fc7346f5cd52ba,
    0x857c5627699f86d4edcce4615799005ab09e2bd8ade938aab532c58d17b8ca00⟩,
  ⟨1783212600, 0x201fffff, 4, 0x04f8537933b933a4d485e0425073bec0e15fcccb2f6cdecdac11f363d57e2568,
    0x8997a71cefc0b8de7040e2c93f8dd75d409c3b5f5cd3babdc519fdad648eaa17⟩,
  ⟨1783213200, 0x201fffff, 3, 0x524b0efb6f9db89aa162beadd4e74a1434da0473358d3015d4808e17d038ca9e,
    0x532c32564e809eb858abc91f26ffce6d9f1fd176d1e6ddbeff2564bb493b6d13⟩,
  ⟨1783213800, 0x201fffff, 20, 0x90d18b966b5f02cab0e4ff29eeef965574469d131f60b7dcc997d8b51f4d06c1,
    0x2643421f2e5c5b6b3952e8ca528e6456d6f925c842c5573885274351f613b71c⟩,
  ⟨1783214400, 0x201fffff, 1, 0x967dd41358763b30065243429b18a7bf6377528acbe8f98c5aff261786ce7932,
    0x1ed9166bcf79614e47520f670f4c6c3c06f658fb91f672c161534a2a3a7f971a⟩,
  ⟨1783215000, 0x201fffff, 10, 0xaea4cf61e82081b2cf78d646a348f399ae283dd465d442c79690796dd91bea27,
    0xb7e99de6e03e8456342838cdffe4f153a05860dd4a77e9ac82d3a5c1a9f53319⟩,
  ⟨1783215600, 0x201fffff, 15, 0xe09a9ef02b87020619b1390f7d4340103e61df3d6e8097ada1ad0dc312b133e7,
    0x8f2e78893e50899fdd34c0f2ac5cc46059b03c1b9175ad907f7d350d80541005⟩,
  ⟨1783216200, 0x201fffff, 2, 0xcd8cd660512955762c1cac8ca326561107a50d3742a75c542a186be98b424187,
    0x15327df6c8582208671bc2a9f1cba6bd3a869e6dc9bba5bbc1f19097cb0b0c0f⟩]

/-- The store after the chain was submitted. -/
def store : ForkChainStore := afterCalls (library outlier) config (submissions outlier 1783217300)

def hashAt (position : ℕ) : Digest := digestOf ((outlier.map Mined.hash).getD position 0)

/-- The branch of a stored block, newest first. -/
def branchAt (position : ℕ) : Branch := ((store.branch "" (some (hashAt position))).toOption).getD []

/-- The branches of the eleventh and the twelfth block and their times. -/
theorem store_computed :
    (store.lookup (hashAt 10)).isSome = true ∧ (store.lookup (hashAt 11)).isSome = true ∧
    (branchAt 10).length = 11 ∧ (branchAt 11).length = 12 ∧
    eleventhTime (branchAt 10) = 1783210200 ∧ nearestTime (branchAt 10) 4 = 1783213200 ∧
    nearestTime (branchAt 11) 4 = 1783213200 ∧ nearestTime (branchAt 11) 5 = 1783213800 ∧
    eleventhTime (branchAt 11) = 1783217200 ∧ store.medianTimePast (some (hashAt 11)) = .ok 1783213200 := by
  decide +kernel

theorem branchOf_branchAt {position : ℕ} (stored : (store.lookup (hashAt position)).isSome = true) :
    BranchOf store (some (hashAt position)) (branchAt position) := by
  obtain ⟨node, known⟩ := Option.isSome_iff_exists.mp stored
  obtain ⟨rest, found, -⟩ := Rooted.afterCalls config (submissions outlier 1783217300) _ node known
  have walked : store.branch "" (some (hashAt position)) = .ok ((hashAt position, node) :: rest) := found.walked ""
  rw [branchAt, walked]
  exact found

end CoinbaseChain

/-! ## The theorems -/

/-- After any calls the median time past of a stored block is at least that of its parent, which is at least the
second before the launch, and the block is later than the median time past of its parent. -/
theorem median_time_past_monotone (lib : ForkPrimitives) (config : ForkChainConfig) (ops : List ForkOp)
    (hash : Digest) (node : BlockNode) (stored : (afterCalls lib config ops).lookup hash = some node) :
    ∃ median parentMedian,
      (afterCalls lib config ops).medianTimePast (some hash) = .ok median ∧
      (afterCalls lib config ops).medianTimePast ((afterCalls lib config ops).parentOf node) =
        .ok parentMedian ∧
      parentMedian ≤ median ∧
      config.manifest.config.launchTimestampUtc.timestamp - 1 ≤ (parentMedian.toNat : ℤ) ∧
      parentMedian < node.block.header.time.setWidth 64 := by
  have configured : (afterCalls lib config ops).toForkChainConfig = config := afterCalls_config config ops
  obtain ⟨rest, found, valid⟩ := Rooted.afterCalls config ops hash node stored
  rw [configured] at valid
  cases valid with
  | cons hashed linked admitted below =>
    obtain ⟨parentMedian, past, later⟩ := admitted.median
    obtain ⟨anchor, launch, rfl⟩ := medianOn_eq_ok.mp past
    have least := below.anchor_le launch
    cases found with
    | entry known above =>
      refine ⟨medianTime (anchor :: (timesOf ((hash, node) :: rest)).take 10),
        medianTime (anchor :: (timesOf rest).take 10), ?_, ?_, medianTime_le_of_later later, ?_, later⟩
      · rw [BranchOf.medianTimePast_eq (.entry known above), configured]
        exact medianOn_eq_ok.mpr ⟨anchor, launch, rfl⟩
      · rw [BranchOf.medianTimePast_eq above, configured, past]
      · rw [BitVec.le_def] at least
        have after : anchor < node.block.header.time.setWidth 64 := by
          rw [BitVec.lt_def] at later ⊢
          omega
        rw [← launchAnchor_eq launch after]
        exact_mod_cast least

theorem median_time_past_monotone_sample : ∃ node median parentMedian,
    CoinbaseChain.store.lookup (CoinbaseChain.hashAt 11) = some node ∧
    CoinbaseChain.store.medianTimePast (some (CoinbaseChain.hashAt 11)) = .ok median ∧
    CoinbaseChain.store.medianTimePast (CoinbaseChain.store.parentOf node) = .ok parentMedian ∧
    parentMedian ≤ median ∧ parentMedian < node.block.header.time.setWidth 64 := by
  obtain ⟨-, stored, -⟩ := CoinbaseChain.store_computed
  obtain ⟨node, known⟩ := Option.isSome_iff_exists.mp stored
  obtain ⟨median, parentMedian, past, parentPast, grows, -, later⟩ := median_time_past_monotone
    (CoinbaseChain.library CoinbaseChain.outlier) CoinbaseChain.config _ _ node known
  exact ⟨node, median, parentMedian, known, past, parentPast, grows, later⟩

/-- After any calls the median time past of a block with ten fork ancestors is Bitcoin's one exactly when the tenth
ancestor is not later than the fifth of the ten nearest times, or the fifth and the sixth of them are the same. -/
theorem median_time_past_bitcoin_iff (lib : ForkPrimitives) (config : ForkChainConfig) (ops : List ForkOp)
    (hash : Digest) (branch : Branch) (found : BranchOf (afterCalls lib config ops) (some hash) branch)
    (long : 11 ≤ branch.length) :
    (afterCalls lib config ops).medianTimePast (some hash) = .ok (bitcoinMedianTime branch) ↔
      eleventhTime branch ≤ nearestTime branch 4 ∨ nearestTime branch 5 = nearestTime branch 4 := by
  have configured : (afterCalls lib config ops).toForkChainConfig = config := afterCalls_config config ops
  obtain ⟨node, rest, rfl⟩ : ∃ node rest, branch = (hash, node) :: rest := by
    cases found with
    | entry stored above => exact ⟨_, _, rfl⟩
  have stored : (afterCalls lib config ops).lookup hash = some node :=
    Trail.stored_of_mem found List.mem_cons_self
  obtain ⟨other, found', valid⟩ := Rooted.afterCalls config ops hash node stored
  rw [Trail.unique found' found, configured] at valid
  obtain ⟨anchor, launch⟩ : ∃ anchor, config.launchAnchor = .ok anchor := by
    cases valid with
    | cons hashed linked admitted below =>
      obtain ⟨median, past, -⟩ := admitted.median
      obtain ⟨anchor, launch, -⟩ := medianOn_eq_ok.mp past
      exact ⟨anchor, launch⟩
  have past : medianOn config ((hash, node) :: rest) = .ok (nearestTime ((hash, node) :: rest) 4) :=
    medianOn_eq_ok.mpr ⟨anchor, launch, valid.medianTime_eq launch long⟩
  have ordered := (le_nearestTime_iff (show 5 < 10 by decide) long (nearestTime ((hash, node) :: rest) 4).toNat).mpr
    (((le_nearestTime_iff (show 4 < 10 by decide) long _).mp le_rfl).trans (by decide))
  have eleven := bitcoinMedianTime_eq long
  rw [BranchOf.medianTimePast_eq found, configured, past, Except.ok.injEq]
  simp only [← BitVec.toNat_inj, BitVec.le_def] at ordered eleven ⊢
  rw [eleven]
  omega

open CoinbaseChain in
/-- The ten newest blocks of the eleventh block are all later than its tenth ancestor. -/
theorem median_time_past_bitcoin_sample :
    BranchOf CoinbaseChain.store (some (hashAt 10)) (branchAt 10) ∧
    CoinbaseChain.store.medianTimePast (some (hashAt 10)) = .ok (bitcoinMedianTime (branchAt 10)) := by
  obtain ⟨stored, -, length, -, eleventh, fifth, -⟩ := store_computed
  have found := branchOf_branchAt stored
  refine ⟨found, (median_time_past_bitcoin_iff (CoinbaseChain.library outlier) CoinbaseChain.config _ _ _
    found length.ge).mpr (.inl ?_)⟩
  rw [eleventh, fifth]
  decide

open CoinbaseChain in
/-- The tenth ancestor of the twelfth block is the late one: the window holds the launch anchor in its place. -/
theorem median_time_past_outlier : BranchOf CoinbaseChain.store (some (hashAt 11))
      (branchAt 11) ∧ 11 ≤ (branchAt 11).length ∧
    CoinbaseChain.store.medianTimePast (some (hashAt 11)) = .ok 1783213200 ∧
    bitcoinMedianTime (branchAt 11) = 1783213800 := by
  obtain ⟨-, stored, -, length, -, -, fifth, sixth, eleventh, past⟩ := store_computed
  refine ⟨branchOf_branchAt stored, by omega, past, ?_⟩
  apply BitVec.eq_of_toNat_eq
  rw [bitcoinMedianTime_eq (by omega), fifth, sixth, eleventh]
  decide

end P2PoolBTC.Soundness
