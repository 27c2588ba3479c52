import UbtExex.Accounts

/-!
# Code leaves

Whether the leaves of an account mirror its code: the code size in the basic data,
the code hash and the code chunks.  A bundle writes the size of the code it has
loaded, the hash when it is a real one, and the chunks of the loaded code.  It does not
look up a code that is not loaded, and it clears no leaf of an earlier code.

## Main definitions

* `AccountInfo.fullCode` — the code whose hash an info has.
* `CodeMirrored` — the code leaves are those of the code of an info.
* `CodeKept` — the condition on the last bundle of an account and the leaves it finds.

## Main results

* `code_leaves_mirror_iff` — **after the last bundle of an account its code leaves mirror
  its code if and only if the code is loaded and no leaf of an earlier code is left.**
* `code_leaves_lose_size` — a change of the nonce that clears the code size.
-/

open Std

namespace UbtExex

/-! ### The code of an info -/

/-- The items that hold an account's code; chunk indices are 64-bit numbers. -/
def Item.IsCode : Item → Prop
  | .basicData => True
  | .codeHash => True
  | .codeChunk i => i < 2 ^ 64
  | .storageSlot _ => False

instance (item : Item) : Decidable item.IsCode :=
  match item with
  | .basicData => .isTrue trivial
  | .codeHash => .isTrue trivial
  | .codeChunk i => inferInstanceAs (Decidable (i < 2 ^ 64))
  | .storageSlot _ => .isFalse id

/-- The code whose hash the info has, by a store of codes. -/
def AccountInfo.fullCode (codeOf : B256 → List UInt8) (info : AccountInfo) : List UInt8 :=
  if info.HasCode then codeOf info.codeHash else []

variable {U : Ubt} {codeOf : B256 → List UInt8} {codeSizeOf : B256 → BitVec 32}

/-- The code leaves of an account are those of the code of its info: the size that
`codeSizeOf` reads from the basic data, the hash, and the chunks. -/
structure CodeMirrored (U : Ubt) (codeOf : B256 → List UInt8) (codeSizeOf : B256 → BitVec 32)
    (address : Address) (info : AccountInfo) (σ : TreeKey → B256) : Prop where
  size : (codeSizeOf (σ (U.key address .basicData))).toNat = (info.fullCode codeOf).length
  hash : σ (U.key address .codeHash) = if info.HasCode then info.codeHash else 0
  chunks : ∀ i < 2 ^ 64, σ (U.key address (.codeChunk i)) =
    ((U.chunkifyCode (info.fullCode codeOf))[i]?).getD 0

/-- The code is loaded unless it is empty, its length fits, and no code hash and no chunk
of an earlier code is left where the code has none. -/
structure CodeKept (U : Ubt) (codeOf : B256 → List UInt8) (address : Address)
    (info : AccountInfo) (σ : TreeKey → B256) : Prop where
  loaded : info.code = none → info.fullCode codeOf = []
  short : (info.fullCode codeOf).length < 2 ^ 32
  hash : ¬info.HasCode → σ (U.key address .codeHash) = 0
  chunks : ∀ i < 2 ^ 64, (U.chunkifyCode (info.fullCode codeOf)).length ≤ i →
    σ (U.key address (.codeChunk i)) = 0

/-! ### What a bundle writes to the code leaves -/

section Writes

variable {account : BundleAccount} {info : AccountInfo}

theorem mem_accountItems_info (hinfo : account.info = some info) {w : Item × B256}
    (hw : w ∈ infoItems U info) : w ∈ accountItems U account := by
  unfold accountItems
  rw [hinfo]
  exact List.mem_append_left _ hw

/-- Only the info writes to code leaves. -/
theorem lastWrite_accountItems_eq_none (hinfo : account.info = some info) {item : Item}
    (hitem : ∀ slot, item ≠ .storageSlot slot) (hnot : ∀ w ∈ infoItems U info, w.1 ≠ item) :
    Writes.lastWrite (accountItems U account) item = none := by
  rw [Writes.lastWrite_eq_none]
  unfold accountItems
  rw [hinfo]
  intro w hw
  rcases List.mem_append.mp hw with hw | hw
  · exact hnot w hw
  · obtain ⟨p, -, rfl⟩ := mem_storageItems.mp hw
    exact fun h => hitem _ h.symm

theorem lastWrite_basicData (hinfo : account.info = some info) :
    Writes.lastWrite (accountItems U account) .basicData =
      some (U.basicDataLeaf info.nonce (balanceToU128 info.balance) info.codeSize) :=
  Writes.lastWrite_of_nodup (nodup_accountItems account)
    (mem_accountItems_info hinfo List.mem_cons_self)

theorem lastWrite_codeHash (hinfo : account.info = some info) :
    Writes.lastWrite (accountItems U account) .codeHash =
      if info.HasCode then some info.codeHash else none := by
  split
  · next h =>
    refine Writes.lastWrite_of_nodup (nodup_accountItems account) (mem_accountItems_info hinfo ?_)
    unfold infoItems
    rw [if_pos h]
    exact List.mem_cons_of_mem _ List.mem_cons_self
  · next h =>
    refine lastWrite_accountItems_eq_none hinfo (fun _ => Item.noConfusion) ?_
    unfold infoItems
    rw [if_neg h]
    intro w hw
    obtain rfl := List.mem_singleton.mp hw
    exact Item.noConfusion

theorem lastWrite_codeChunk (hinfo : account.info = some info) (i : ℕ) :
    Writes.lastWrite (accountItems U account) (.codeChunk i) =
      if info.HasCode then info.code.bind fun code => (U.chunkifyCode code)[i]? else none := by
  have hnone : (∀ code, info.HasCode → info.code = some code → (U.chunkifyCode code)[i]? = none) →
      Writes.lastWrite (accountItems U account) (.codeChunk i) = none := by
    intro hno
    refine lastWrite_accountItems_eq_none hinfo (fun _ => Item.noConfusion) ?_
    unfold infoItems
    intro w hw heq
    rcases List.mem_cons.mp hw with rfl | hw
    · cases heq
    · split at hw
      · next h =>
        rcases List.mem_cons.mp hw with rfl | hw
        · cases heq
        · cases hcode : info.code with
          | none =>
            rw [hcode] at hw
            cases hw
          | some code =>
            rw [hcode] at hw
            obtain ⟨j, hj, hwj⟩ := mem_chunkItems.mp hw
            rw [hwj] at heq
            injection heq with hji
            rw [hji, hno code h hcode] at hj
            cases hj
      · cases hw
  split
  · next h =>
    cases hcode : info.code with
    | none => exact hnone fun code _ hc => by rw [hcode] at hc; cases hc
    | some code =>
      show _ = (U.chunkifyCode code)[i]?
      cases hchunk : (U.chunkifyCode code)[i]? with
      | none =>
        refine hnone fun code' _ hc => ?_
        obtain rfl := Option.some.inj (hcode.symm.trans hc)
        exact hchunk
      | some chunk =>
        refine Writes.lastWrite_of_nodup (nodup_accountItems account)
          (mem_accountItems_info hinfo ?_)
        unfold infoItems
        rw [if_pos h, hcode]
        refine List.mem_cons_of_mem _ (List.mem_cons_of_mem _ ?_)
        exact mem_chunkItems.mpr ⟨i, hchunk, rfl⟩
  · next h => exact hnone fun code h' => absurd h' h

end Writes

/-! ### The last bundle of an account -/

/-- The size that is written is that of the full code exactly when the code is loaded,
unless it is empty, and its length fits. -/
theorem codeSize_eq_iff {info : AccountInfo}
    (hcode : ∀ code, info.code = some code → code = info.fullCode codeOf) :
    info.codeSize.toNat = (info.fullCode codeOf).length ↔
      (info.code = none → info.fullCode codeOf = []) ∧ (info.fullCode codeOf).length < 2 ^ 32 := by
  unfold AccountInfo.codeSize
  rw [BitVec.toNat_ofNat]
  cases hc : info.code with
  | none =>
    show 0 % 2 ^ 32 = _ ↔ _
    rw [Nat.zero_mod]
    constructor
    · intro h
      have hnil : info.fullCode codeOf = [] := List.length_eq_zero_iff.mp h.symm
      exact ⟨fun _ => hnil, by rw [hnil]; decide⟩
    · rintro ⟨hnil, -⟩
      rw [hnil rfl]
      rfl
  | some code =>
    show code.length % 2 ^ 32 = _ ↔ _
    rw [← hcode code hc]
    constructor
    · intro h
      refine ⟨(fun hn => by cases hn), ?_⟩
      rw [← h]
      exact Nat.mod_lt _ (by decide)
    · rintro ⟨-, hlt⟩
      exact Nat.mod_eq_of_lt hlt

/-- **After the last bundle of an account its code leaves mirror its code if and only if
that bundle has the code loaded, unless it is empty, and finds no leaf of an earlier
code where the code has none.**  `codeOf` gives the code of a hash; a loaded code is
the one of its hash; the encoding of the basic data has the code size in it; the empty
code has no chunks; and no other item that is written shares a key with a code item. -/
theorem code_leaves_mirror_iff {earlier later : List Chain} {chain : Chain} {m₀ m₁ m₂ : Machine}
    {address : Address} {account : BundleAccount} {info : AccountInfo}
    (hpending : m₀.exex.pendingEntries = []) (hearlier : commitChains U earlier m₀ = .ok () m₁)
    (hrun : commitChains U (chain :: later) m₁ = .ok () m₂)
    (haccount : (address, account) ∈ chain.bundle.state) (hinfo : account.info = some info)
    (hlater : ∀ c ∈ later, address ∉ c.bundle.state.map Prod.fst)
    (hcode : ∀ code, info.code = some code → code = info.fullCode codeOf)
    (hdecode : ∀ nonce balance codeSize,
      codeSizeOf (U.basicDataLeaf nonce balance codeSize) = codeSize)
    (hempty : U.chunkifyCode [] = [])
    (hapart : ∀ item : Item, item.IsCode → Apart U (chain :: later) address item) :
    CodeMirrored U codeOf codeSizeOf address info m₂.exex.logical ↔
      CodeKept U codeOf address info m₁.exex.logical := by
  have hpending₁ := (logical_commitChains hpending hearlier).1
  have hitem : ∀ item : Item, item.IsCode → m₂.exex.logical (U.key address item) =
      (Writes.lastWrite (accountItems U account) item).getD
        (m₁.exex.logical (U.key address item)) := fun item hcode =>
    logical_commitChains_item hpending₁ hrun haccount hlater (hapart item hcode)
  have hsize : (codeSizeOf (m₂.exex.logical (U.key address .basicData))).toNat =
      (info.fullCode codeOf).length ↔ (info.code = none → info.fullCode codeOf = []) ∧
        (info.fullCode codeOf).length < 2 ^ 32 := by
    rw [hitem .basicData trivial, lastWrite_basicData hinfo, Option.getD_some, hdecode]
    exact codeSize_eq_iff hcode
  have hhash : m₂.exex.logical (U.key address .codeHash) =
      (if info.HasCode then info.codeHash else 0) ↔
        (¬info.HasCode → m₁.exex.logical (U.key address .codeHash) = 0) := by
    rw [hitem .codeHash trivial, lastWrite_codeHash hinfo]
    by_cases h : info.HasCode
    · simp [h]
    · simp [h]
  -- once the code is loaded or empty, the chunks written are those of the full code
  have hchunk : (info.code = none → info.fullCode codeOf = []) → ∀ i < 2 ^ 64,
      m₂.exex.logical (U.key address (.codeChunk i)) =
        ((U.chunkifyCode (info.fullCode codeOf))[i]?).getD
          (m₁.exex.logical (U.key address (.codeChunk i))) := by
    intro hloaded i hi
    rw [hitem (.codeChunk i) hi, lastWrite_codeChunk hinfo]
    by_cases h : info.HasCode
    · rw [if_pos h]
      cases hc : info.code with
      | none =>
        rw [hloaded hc, hempty]
        rfl
      | some code =>
        rw [← hcode code hc]
        rfl
    · have hnil : info.fullCode codeOf = [] := if_neg h
      rw [if_neg h, hnil, hempty]
      rfl
  have hchunks : (info.code = none → info.fullCode codeOf = []) →
      ((∀ i < 2 ^ 64, m₂.exex.logical (U.key address (.codeChunk i)) =
          ((U.chunkifyCode (info.fullCode codeOf))[i]?).getD 0) ↔
        ∀ i < 2 ^ 64, (U.chunkifyCode (info.fullCode codeOf)).length ≤ i →
          m₁.exex.logical (U.key address (.codeChunk i)) = 0) := by
    intro hloaded
    refine forall₂_congr fun i hi => ?_
    rw [hchunk hloaded i hi]
    rcases Nat.lt_or_ge i (U.chunkifyCode (info.fullCode codeOf)).length with hlt | hge
    · rw [List.getElem?_eq_getElem hlt]
      exact iff_of_true rfl fun hle => absurd hlt (by omega)
    · rw [List.getElem?_eq_none hge]
      exact ⟨fun h _ => h, fun h => h hge⟩
  constructor
  · rintro ⟨hs, hh, hc⟩
    obtain ⟨hloaded, hshort⟩ := hsize.mp hs
    exact ⟨hloaded, hshort, hhash.mp hh, (hchunks hloaded).mp hc⟩
  · rintro ⟨hloaded, hshort, hh, hc⟩
    exact ⟨hsize.mpr ⟨hloaded, hshort⟩, hhash.mpr hh, (hchunks hloaded).mpr hc⟩

/-! ### A change of the nonce with the code not loaded -/

/-- The code size in a basic-data leaf of the small environment. -/
def sampleCodeSize (leaf : B256) : BitVec 32 := (leaf >>> 192).setWidth 32

/-- The code of hash 99. -/
def sampleCode (hash : B256) : List UInt8 := if hash = 99 then [1, 2, 3] else []

/-- An account with code, loaded or not. -/
def codeAccount (nonce : BitVec 64) (code : Option (List UInt8)) : BundleAccount :=
  ⟨some ⟨0, nonce, 99, code⟩, [], false, List.nodup_nil⟩

theorem sampleCodeSize_leaf (nonce : BitVec 64) (balance : BitVec 128) (codeSize : BitVec 32) :
    sampleCodeSize (sampleUbt.basicDataLeaf nonce balance codeSize) = codeSize := by
  apply BitVec.eq_of_getLsbD_eq
  intro i hi
  have hnonce : nonce.getLsbD (192 + i - 128) = false := BitVec.getLsbD_of_ge _ _ (by omega)
  have hbalance : balance.getLsbD (192 + i) = false := BitVec.getLsbD_of_ge _ _ (by omega)
  have hlt : 192 + i < 256 := by omega
  have hlt' : i < 256 := by omega
  simp [sampleCodeSize, sampleUbt, hi, hlt, hlt', hnonce, hbalance]

/-- The position of a code item of an account in the small environment. -/
def codeIndex : Item → ℕ
  | .basicData => 0
  | .codeHash => 1
  | .codeChunk i => 128 + i
  | .storageSlot _ => 0

theorem codeIndex_inj {item item' : Item} (h : item.IsCode) (h' : item'.IsCode)
    (heq : codeIndex item = codeIndex item') : item = item' := by
  cases item <;> cases item' <;> grind [codeIndex, Item.IsCode]

theorem sampleUbt_key {address : Address} {item : Item} (h : item.IsCode) :
    sampleUbt.key address item = ⟨address ++ BitVec.ofNat 88 (codeIndex item / 256),
      UInt8.ofNat (codeIndex item % 256)⟩ := by
  cases item with
  | basicData => rfl
  | codeHash => rfl
  | codeChunk i => rfl
  | storageSlot slot => exact h.elim

/-- The small environment tells code items apart. -/
theorem sampleUbt_key_inj {address : Address} {item item' : Item} (h : item.IsCode)
    (h' : item'.IsCode) (heq : sampleUbt.key address item = sampleUbt.key address item') :
    item = item' := by
  have hbound : ∀ {item : Item}, item.IsCode → codeIndex item < 128 + 2 ^ 64 := by
    intro item h
    cases item with
    | basicData => decide
    | codeHash => decide
    | codeChunk i => exact Nat.add_lt_add_left h 128
    | storageSlot slot => exact h.elim
  have hb := hbound h
  have hb' := hbound h'
  rw [sampleUbt_key h, sampleUbt_key h'] at heq
  obtain ⟨hstem, hsub⟩ := TreeKey.mk.inj heq
  have hlow := congrArg (fun x => (BitVec.extractLsb' 0 88 x).toNat) hstem
  simp only [BitVec.extractLsb'_append_eq_right, BitVec.toNat_ofNat] at hlow
  have hsub := congrArg UInt8.toNat hsub
  simp only [UInt8.toNat_ofNat'] at hsub
  have hindex : codeIndex item = codeIndex item' := by omega
  exact codeIndex_inj h h' hindex

/-- Chains that write code items of one account only leave its code items apart. -/
theorem apart_of_isCode {chains : List Chain} {address : Address} {item : Item}
    (h : item.IsCode)
    (hwrites : ∀ w ∈ chainsItems sampleUbt chains, w.1.1 = address ∧ w.1.2.IsCode) :
    Apart sampleUbt chains address item := by
  intro w hw heq
  obtain ⟨haddr, hcode⟩ := hwrites w hw
  rw [haddr] at heq
  exact Prod.ext haddr (sampleUbt_key_inj hcode h heq)

/-- A block creates the account with its code. -/
def codeCreated : Chain := accountChain block1 (codeAccount 1 (some [1, 2, 3]))

/-- The next block changes the nonce, with the code loaded or not. -/
def codeTouched (code : Option (List UInt8)) : Chain := accountChain block2 (codeAccount 2 code)

/-- The code leaves of an account whose code is loaded again mirror it. -/
theorem code_leaves_mirror_loaded : ∃ m₁ m₂,
    commitChains sampleUbt [codeCreated] (.fresh ⟨1, 10⟩) = .ok () m₁ ∧
      commitChains sampleUbt [codeTouched (some [1, 2, 3])] m₁ = .ok () m₂ ∧
      CodeMirrored sampleUbt sampleCode sampleCodeSize 7 ⟨0, 2, 99, some [1, 2, 3]⟩
        m₂.exex.logical := by
  have hok₁ : (commitChains sampleUbt [codeCreated] (.fresh ⟨1, 10⟩)).isOk = true := by
    decide +kernel
  obtain ⟨u₁, hrun₁⟩ := EStateM.Result.exists_ok hok₁
  have hok₂ : (commitChains sampleUbt [codeTouched (some [1, 2, 3])]
      (commitChains sampleUbt [codeCreated] (.fresh ⟨1, 10⟩)).state).isOk = true := by
    decide +kernel
  obtain ⟨u₂, hrun₂⟩ := EStateM.Result.exists_ok hok₂
  have hcode : ∀ code, some [1, 2, 3] = some code →
      code = AccountInfo.fullCode sampleCode ⟨0, 2, 99, some [1, 2, 3]⟩ := by
    intro code h
    rw [← Option.some.inj h]
    decide
  refine ⟨_, _, hrun₁, hrun₂, ?_⟩
  refine (code_leaves_mirror_iff rfl hrun₁ hrun₂ List.mem_cons_self rfl (by simp) hcode
    sampleCodeSize_leaf rfl fun item h => apart_of_isCode h (by decide)).mpr ?_
  refine ⟨fun h => (by cases h), by decide, fun h => absurd (by decide) h, fun i hi hge => ?_⟩
  -- the first chain wrote the chunks 0, 1 and 2
  rw [(logical_commitChains rfl hrun₁).2, Writes.applyAll_of_forall_ne]
  · exact logical_fresh _ _
  · intro w hw heq
    obtain ⟨w', hw', rfl⟩ := List.mem_map.mp hw
    have hapart : Apart sampleUbt [codeCreated] 7 (.codeChunk i) :=
      apart_of_isCode hi (by decide)
    have hindex : ∀ w ∈ chainsItems sampleUbt [codeCreated], codeIndex w.1.2 < 131 := by decide
    have hlt := hindex w' hw'
    rw [hapart w' hw' heq] at hlt
    have hge : 3 ≤ i := hge
    simp only [codeIndex] at hlt
    omega

/-- **A change of the nonce clears the code size**: the bundle does not have the code
loaded, and the basic data is written with code size zero. -/
theorem code_leaves_lose_size :
    ¬∀ (U : Ubt) (codeOf : B256 → List UInt8) (codeSizeOf : B256 → BitVec 32)
      (earlier later : List Chain) (chain : Chain) (config : UbtConfig) (m₁ m₂ : Machine)
      (address : Address) (account : BundleAccount) (info : AccountInfo),
      commitChains U earlier (.fresh config) = .ok () m₁ →
      commitChains U (chain :: later) m₁ = .ok () m₂ →
      (∀ c ∈ earlier ++ chain :: later, ∀ p ∈ c.bundle.state, ¬p.2.Destroyed ∧
        ∀ info' ∈ p.2.info, ∀ code ∈ info'.code, code = info'.fullCode codeOf) →
      (address, account) ∈ chain.bundle.state → account.info = some info →
      (∀ c ∈ later, address ∉ c.bundle.state.map Prod.fst) →
      (∀ nonce balance codeSize, codeSizeOf (U.basicDataLeaf nonce balance codeSize) = codeSize) →
      U.chunkifyCode [] = [] →
      (∀ item : Item, item.IsCode → Apart U (earlier ++ chain :: later) address item) →
      CodeMirrored U codeOf codeSizeOf address info m₂.exex.logical := by
  intro hall
  have hok₁ : (commitChains sampleUbt [codeCreated] (.fresh ⟨1, 10⟩)).isOk = true := by
    decide +kernel
  obtain ⟨u₁, hrun₁⟩ := EStateM.Result.exists_ok hok₁
  have hok₂ : (commitChains sampleUbt [codeTouched none]
      (commitChains sampleUbt [codeCreated] (.fresh ⟨1, 10⟩)).state).isOk = true := by
    decide +kernel
  obtain ⟨u₂, hrun₂⟩ := EStateM.Result.exists_ok hok₂
  have hbundles : ∀ c ∈ [codeCreated] ++ codeTouched none :: [], ∀ p ∈ c.bundle.state,
      ¬p.2.Destroyed ∧
        ∀ info' ∈ p.2.info, ∀ code ∈ info'.code, code = info'.fullCode sampleCode := by decide
  have hmirrored := hall sampleUbt sampleCode sampleCodeSize [codeCreated] [] (codeTouched none) _ _ _ 7
    _ ⟨0, 2, 99, none⟩ hrun₁ hrun₂ hbundles List.mem_cons_self rfl (by simp) sampleCodeSize_leaf rfl
    fun item h => apart_of_isCode h (by decide)
  have hsize := hmirrored.size
  revert hsize
  decide +kernel

end UbtExex
