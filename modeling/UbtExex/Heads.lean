import UbtExex.Crash
import UbtExex.DeltaTable
import UbtExex.Export
import UbtExex.Owned

/-!
# The two heads

A commit that flushes saves its head in MDBX and in the key index.  A revert of a
persisted block and a shutdown save a head in MDBX only.  So the two heads agree as
long as reverts stay above the last flush and a shutdown finds the head saved
already, and `get_root`, which reads the key index, then serves a canonical block.

## Main definitions

* `ServiceStep` — a commit, a revert or a shutdown.
* `HeadsAgree`, `ServesCheckpoint` — what is asked of the stores.
* `HeadKept` — the condition on an operation, before it is made.

## Main results

* `serves_step` — one operation.
* `heads_agree_iff` — **the heads agree all along a run whose operations meet the
  condition, and only then, unless two states have one root.**
* `getRoot_serves_reverted` — a revert of a flushed block.
-/

open Std

namespace UbtExex

/-! ### Steps -/

/-- What happens to a running extension. -/
inductive ServiceEvent
  /-- A commit or a revert. -/
  | chain (e : Event)
  /-- A shutdown. -/
  | shutdown

/-- One operation, over a chain that starts at `base`. -/
inductive ServiceStep (U : Ubt) (base : ℕ × B256) : Tracked → ServiceEvent → Tracked → Prop
  | chain {t t' : Tracked} {e : Event} (h : ChainStep U base t e t') :
      ServiceStep U base t (.chain e) t'
  | shutdown {m m' : Machine} {L : Ledger} {hi : ℕ} (h : shutdown U m = .ok () m') :
      ServiceStep U base ⟨m, L, hi⟩ .shutdown ⟨m', L, hi⟩

/-- Both heads are absent, or they hold the same block, root and number of stems. -/
def HeadsAgree (d : Disk) : Prop :=
  (d.keyIndex.loadHead.map fun hd => (hd.blockNumber, hd.blockHash, hd.root, hd.stemCount)) =
    d.db.loadHead.map fun hd => (hd.blockNumber, hd.blockHash, hd.root, hd.stemCount)

/-- The heads agree, and what `get_root` serves is a canonical block with the root of
the stored stems, as the MDBX head has it. -/
structure ServesCheckpoint (U : Ubt) (t : Tracked) : Prop where
  agree : HeadsAgree t.machine.exex.toDisk
  canonical : ∀ r, getRoot t.machine.exex.toDisk = .ok r →
    (∃ b ∈ t.ledger.blocks, (b.block.number, b.block.hash) = (r.blockNumber, r.blockHash)) ∧
      r.root = computeRoot U t.machine.exex.db ∧
      t.machine.exex.db.loadHead = some ⟨r.blockNumber, r.blockHash, r.root, r.stemCount⟩

/-- A revert undoes no persisted block; a shutdown finds the head of the last block
with the number of stems, and nothing in the overlay that is not stored. -/
def HeadKept (t : Tracked) : ServiceEvent → Prop
  | .chain (.commit _ _) => True
  | .chain (.revert old) => ∀ b ∈ old.blocks, t.machine.exex.lastPersistedBlock < b.number
  | .shutdown => t.machine.exex.logical = t.machine.exex.db.value ∧
      ∃ root, t.machine.exex.db.loadHead =
        some ⟨t.machine.exex.lastBlock, t.machine.exex.lastHash, root, t.machine.exex.stemCount⟩

/-- If a shutdown finds and leaves stems with one root, their entries are the same. -/
def RootsTell (U : Ubt) (t : Tracked) : ServiceEvent → Prop
  | .shutdown =>
    let db := t.machine.exex.db.batchUpdateStems t.machine.exex.dirtyStems.toList
    computeRoot U db = computeRoot U t.machine.exex.db →
      db.iterEntriesSorted = t.machine.exex.db.iterEntriesSorted
  | _ => True

/-! ### One operation -/

/-- The heads agree on a canonical block, the last one persisted. -/
structure Serving (U : Ubt) (base : ℕ × B256) (t : Tracked) : Prop where
  linked : Linked base t.ledger.blocks
  agree : HeadsAgree t.machine.exex.toDisk
  root : RootOk U t.machine.exex.db
  fresh : t.machine.exex.db.loadHead = none → t.machine.exex.lastPersistedBlock = 0
  saved : ∀ hd, t.machine.exex.db.loadHead = some hd →
    hd.blockNumber = t.machine.exex.lastPersistedBlock ∧
      ∃ b ∈ t.ledger.blocks, (b.block.number, b.block.hash) = (hd.blockNumber, hd.blockHash)

variable {U : Ubt} {base : ℕ × B256}

theorem Serving.serves {t : Tracked} (h : Serving U base t) : ServesCheckpoint U t where
  agree := h.agree
  canonical r hr := by
    unfold getRoot at hr
    cases hki : t.machine.exex.keyIndex.loadHead with
    | none => rw [hki] at hr; cases hr
    | some head =>
      rw [hki] at hr
      obtain rfl := Except.ok.inj hr
      have hagree := h.agree
      unfold HeadsAgree at hagree
      rw [hki] at hagree
      cases hdb : t.machine.exex.db.loadHead with
      | none => rw [hdb] at hagree; cases hagree
      | some hd =>
        rw [hdb] at hagree
        simp only [Option.map_some, Option.some.injEq, Prod.mk.injEq] at hagree
        obtain ⟨hn, hh, hroot, hcount⟩ := hagree
        obtain ⟨-, b, hb, htip⟩ := h.saved hd hdb
        refine ⟨⟨b, hb, ?_⟩, ?_, ?_⟩
        · rw [htip, hn, hh]
        · show head.root = _
          rw [hroot]
          exact h.root hd hdb
        · rw [hn, hh, hroot, hcount]

/-- Heads that agree agree on the block number. -/
theorem HeadsAgree.number {d : Disk} (h : HeadsAgree d) :
    d.keyIndex.loadHead.map HeadRecord.blockNumber = d.db.loadHead.map UbtHead.blockNumber := by
  have := congrArg (Option.map Prod.fst) h
  simpa only [Option.map_map, Function.comp_def] using this

/-- **A commit keeps the heads in agreement**, whether or not it flushes. -/
theorem Serving.commit {t : Tracked} {bs : List CanonicalBlock} {es : List PendingEntry}
    {t' : Tracked} (h : Serving U base t) (hstep : ChainStep U base t (.commit bs es) t') :
    Serving U base t' := by
  cases hstep with
  | @commit m m' L hi b bs _ root hlink hwrites hrun =>
    have hlinked : Linked base (b :: bs ++ L.blocks) := linked_append.mpr ⟨h.linked, hlink⟩
    have hc := commit_ok U hrun
    have hki := keyIndexHead_commit U hrun
    have hdb := head_commit U hrun
    cases hflush : (m.push es).exex.shouldFlush b.block.number with
    | true =>
      rw [hflush, if_pos rfl] at hki hdb
      obtain ⟨-, hpersisted, -, hroot, hroot', -⟩ := hc.flushed hflush
      refine ⟨hlinked, ?_, ?_, ?_, ?_⟩
      · show HeadsAgree m'.exex.toDisk
        unfold HeadsAgree
        rw [hki, hdb]
        rfl
      · exact rootOk_of_head hdb (hroot.trans hroot')
      · intro hnone
        cases hnone.symm.trans hdb
      · intro hd hhd
        obtain rfl := Option.some.inj (hdb.symm.trans hhd)
        exact ⟨hpersisted.symm, b, List.mem_cons_self, rfl⟩
    | false =>
      rw [hflush, if_neg (by simp)] at hki hdb
      obtain ⟨hpersisted, -, -, -, hstems, hhead⟩ := hc.kept hflush
      refine ⟨hlinked, ?_, rootOk_congr hstems.symm hhead.symm h.root, ?_, ?_⟩
      · show HeadsAgree m'.exex.toDisk
        unfold HeadsAgree
        rw [hki, hdb]
        exact h.agree
      · intro hnone
        exact hpersisted.trans (h.fresh (hdb.symm.trans hnone))
      · intro hd hhd
        obtain ⟨hn, b', hb', htip⟩ := h.saved hd (hdb.symm.trans hhd)
        exact ⟨hn.trans hpersisted.symm, b', List.mem_append_right _ hb', htip⟩

/-- **A revert keeps the heads in agreement exactly when it undoes no persisted block.** -/
theorem Serving.revert {t t' : Tracked} {old : Chain} (h : Serving U base t)
    (hstep : ChainStep U base t (.revert old) t') :
    (HeadsAgree t'.machine.exex.toDisk ↔ HeadKept t (.chain (.revert old))) ∧
      (HeadKept t (.chain (.revert old)) → Serving U base t') := by
  cases hstep with
  | @revert m m' L hi _ hold hrun =>
    have hr := revert_ok U hrun
    have hlinked := h.linked
    change Linked base L.blocks at hlinked
    have hserving : HeadKept ⟨m, L, hi⟩ (.chain (.revert old)) →
        Serving U base ⟨m', L.dropBlocks old.blocks.length, hi⟩ := by
      intro hkept
      obtain ⟨hpersisted, -, -, hstems, hhead⟩ :=
        hr.kept (by rintro ⟨b, hb, hle⟩; exact absurd (hkept b hb) (Nat.not_lt.mpr hle))
      have hdrop : (L.dropBlocks old.blocks.length).blocks = L.blocks.drop old.blocks.length :=
        L.blocks_dropBlocks _
      refine ⟨?_, ?_, rootOk_congr hstems.symm hhead.symm h.root, ?_, ?_⟩
      · show Linked base (L.dropBlocks old.blocks.length).blocks
        rw [hdrop]
        exact hlinked.drop _
      · show HeadsAgree m'.exex.toDisk
        unfold HeadsAgree UbtDatabase.loadHead
        rw [hr.keyIndex, hhead]
        exact h.agree
      · intro hnone
        exact hpersisted.trans (h.fresh (hhead.symm.trans hnone))
      · intro hd hhd
        obtain ⟨hn, b, hb, htip⟩ := h.saved hd (hhead.symm.trans hhd)
        refine ⟨hn.trans hpersisted.symm, b, ?_, htip⟩
        show b ∈ (L.dropBlocks old.blocks.length).blocks
        rw [hdrop]
        -- the block of the head is not above the last persisted one, so it is not dropped
        have hb' : b ∈ L.blocks.take old.blocks.length ++ L.blocks.drop old.blocks.length := by
          rw [List.take_append_drop]
          exact hb
        rcases List.mem_append.mp hb' with htake | hkeep
        · have hmem : b.block ∈ old.blocks.reverse := hold ▸ List.mem_map_of_mem htake
          have hgt := hkept _ (List.mem_reverse.mp hmem)
          have heq : b.block.number = m.exex.lastPersistedBlock := (congrArg Prod.fst htip).trans hn
          change m.exex.lastPersistedBlock < _ at hgt
          omega
        · exact hkeep
    refine ⟨⟨fun hagree b hb => ?_, fun hkept => (hserving hkept).agree⟩, hserving⟩
    by_contra hle
    have hle : b.number ≤ m.exex.lastPersistedBlock := Nat.not_lt.mp hle
    obtain ⟨-, -, -, -, stemCount, hhead⟩ := hr.persisted ⟨b, hb, hle⟩
    have hnumber := hagree.number
    change m'.exex.keyIndex.loadHead.map _ = m'.exex.db.head.map _ at hnumber
    rw [hr.keyIndex, hhead, h.agree.number] at hnumber
    -- a canonical block is above the base, so the saved number is that of its parent
    have hcanonical : b ∈ (L.blocks.take old.blocks.length).map CanonicalBlock.block := by
      rw [hold]
      exact List.mem_reverse.mpr hb
    obtain ⟨b', hb', rfl⟩ := List.mem_map.mp hcanonical
    have hpos := (hlinked.base_lt (List.mem_of_mem_take hb')).1
    have hfirst : old.first.number ≤ b'.block.number := old.first_le hb
    -- without a head nothing was persisted, so the revert wrote the first one
    cases hdb : m.exex.db.loadHead with
    | none =>
      have hzero : m.exex.lastPersistedBlock = 0 := h.fresh hdb
      omega
    | some hd =>
      rw [hdb] at hnumber
      have hn : hd.blockNumber = m.exex.lastPersistedBlock := (h.saved hd hdb).1
      have heq : hd.blockNumber = old.first.number - 1 := Option.some.inj hnumber
      omega

/-- **A shutdown keeps the heads in agreement when it finds the head saved already**,
and only then, if it finds and leaves stems that their roots tell apart. -/
theorem Serving.shutdown {m m' : Machine} {L : Ledger} {hi : ℕ} (h : Serving U base ⟨m, L, hi⟩)
    (hrun : shutdown U m = .ok () m') :
    (HeadKept ⟨m, L, hi⟩ .shutdown → Serving U base ⟨m', L, hi⟩) ∧
      (RootsTell U ⟨m, L, hi⟩ .shutdown → HeadsAgree m'.exex.toDisk →
        HeadKept ⟨m, L, hi⟩ .shutdown) := by
  have he := shutdown_effect hrun
  set db := m.exex.db.batchUpdateStems m.exex.dirtyStems.toList with hdb
  have hvalue : db.value = m.exex.logical := value_drained rfl
  have hhead : m'.exex.db.loadHead = some ⟨m.exex.lastBlock, m.exex.lastHash, computeRoot U db,
      m.exex.stemCount⟩ := by rw [he]; rfl
  have hroot' : RootOk U m'.exex.db :=
    rootOk_of_head hhead (computeRoot_congr U (by rw [he]; rfl))
  constructor
  · rintro ⟨hlogical, root, hsaved⟩
    -- the drained stems have the values of the stored ones, and so the saved root
    have hroots : root = computeRoot U db := by
      rw [computeRoot_of_value (hvalue.trans hlogical)]
      exact h.root _ hsaved
    have hsame : m'.exex.db.loadHead = m.exex.db.loadHead := by
      rw [hhead, ← hroots]
      exact hsaved.symm
    refine ⟨h.linked, ?_, hroot', ?_, ?_⟩
    · show HeadsAgree m'.exex.toDisk
      unfold HeadsAgree
      rw [hsame, he]
      exact h.agree
    · intro hnone
      cases hnone.symm.trans hhead
    · intro hd hhd
      have hpersisted : m'.exex.lastPersistedBlock = m.exex.lastPersistedBlock := by rw [he]
      obtain ⟨hn, hcanonical⟩ := h.saved hd (hsame.symm.trans hhd)
      exact ⟨hn.trans hpersisted.symm, hcanonical⟩
  · intro htell hagree
    have hold := h.agree
    unfold HeadsAgree at hagree hold
    have hki : m'.exex.keyIndex = m.exex.keyIndex := by rw [he]
    rw [hhead, hki] at hagree
    cases hfound : m.exex.db.loadHead with
    | none =>
      rw [hfound] at hold
      cases hold.symm.trans hagree
    | some hd =>
      rw [hfound] at hold
      have heq := Option.some.inj (hold.symm.trans hagree)
      simp only [Prod.mk.injEq] at heq
      obtain ⟨hn, hh, hroot, hcount⟩ := heq
      have hroots : computeRoot U db = computeRoot U m.exex.db :=
        hroot.symm.trans (h.root hd hfound)
      refine ⟨?_, hd.root, ?_⟩
      · rw [← hvalue]
        funext key
        exact UbtDatabase.value_congr (htell hroots) key
      · rw [hfound, ← hn, ← hh, ← hcount]

/-- **One operation**: it keeps the heads in agreement if it meets the condition, and
only then, if it is no shutdown between states of one root. -/
theorem serves_step {t t' : Tracked} {e : ServiceEvent} (h : Serving U base t)
    (hstep : ServiceStep U base t e t') :
    (HeadKept t e → Serving U base t') ∧
      (RootsTell U t e → HeadsAgree t'.machine.exex.toDisk → HeadKept t e) := by
  cases hstep with
  | @chain _ _ e hchain =>
    cases e with
    | commit bs es => exact ⟨fun _ => h.commit hchain, fun _ _ => trivial⟩
    | revert old =>
      obtain ⟨hiff, hserving⟩ := h.revert hchain
      exact ⟨hserving, fun _ hagree => hiff.mp hagree⟩
  | shutdown hrun => exact h.shutdown hrun

/-! ### Runs -/

theorem serving_fresh (U : Ubt) (base : ℕ × B256) (config : UbtConfig) :
    Serving U base (.start (.fresh config)) where
  linked := trivial
  agree := rfl
  root hd hhd := by cases hhd
  fresh _ := rfl
  saved hd hhd := by cases hhd

/-- **The heads agree, and `get_root` serves a canonical checkpoint, in every state of a
run from a fresh start whose operations meet the condition.**  Conversely, if the
heads agree in every state, then all operations met it, as long as no shutdown
stores other entries with the same root. -/
theorem heads_agree_iff {config : UbtConfig} {h : List (Tracked × ServiceEvent)} {t : Tracked}
    (hrun : Run (ServiceStep U base) (.start (.fresh config)) h t) :
    ((∀ p ∈ h, HeadKept p.1 p.2) → ServesCheckpoint U t ∧ ∀ p ∈ h, ServesCheckpoint U p.1) ∧
      ((∀ p ∈ h, RootsTell U p.1 p.2) →
        (HeadsAgree t.machine.exex.toDisk ∧ ∀ p ∈ h, HeadsAgree p.1.machine.exex.toDisk) →
          ∀ p ∈ h, HeadKept p.1 p.2) := by
  have h₀ := serving_fresh U base config
  constructor
  · intro hkept
    obtain ⟨hlast, hall⟩ := hrun.invariant h₀
      (fun s e s' hs (hcond : HeadKept s e) hstep => (serves_step hs hstep).1 hcond) hkept
    exact ⟨hlast.serves, fun p hp => (hall p hp).serves⟩
  · intro htell hagree
    exact hrun.cond_of_good h₀ (fun s e s' hs hstep => (serves_step hs hstep).1)
      (fun s e s' hs hstep => (serves_step hs hstep).2) htell hagree

/-- The heads agree after a block that is flushed and a shutdown. -/
theorem heads_agree_flushed_shutdown :
    ServesCheckpoint sampleUbt
      ⟨(shutdown sampleUbt staleCommitted.machine).state, staleCommitted.ledger, 1⟩ := by
  have hrun : Run (ServiceStep sampleUbt (0, 0)) (.start (.fresh ⟨1, 10⟩)) _
      ⟨(shutdown sampleUbt staleCommitted.machine).state, staleCommitted.ledger, 1⟩ :=
    .snoc (.snoc .nil (.chain staleCommitted_step.2)) (.shutdown (shutdown_eq_ok sampleUbt _))
  refine ((heads_agree_iff hrun).1 ?_).1
  refine List.forall_mem_cons.mpr ⟨⟨?_, ?_⟩, List.forall_mem_cons.mpr ⟨trivial, by simp⟩⟩
  · have hempty : staleCommitted.machine.exex.dirtyStems.isEmpty = true := by decide +kernel
    exact logical_of_clean (ExtTreeMap.isEmpty_iff.mp hempty)
  · refine ⟨(staleCommitted.machine.exex.db.loadHead.map UbtHead.root).getD 0, ?_⟩
    decide +kernel

/-- **`get_root` serves a block that was reverted**: block 1 is flushed and reverted; MDBX
goes back to block 0, the key index keeps block 1. -/
theorem getRoot_serves_reverted :
    ¬∀ (U : Ubt) (base : ℕ × B256) (config : UbtConfig) (h : List (Tracked × ServiceEvent))
      (t : Tracked), Run (ServiceStep U base) (.start (.fresh config)) h t →
        ServesCheckpoint U t := by
  intro hall
  have hserves := hall sampleUbt (0, 0) ⟨1, 10⟩ _ _
    (.snoc (.snoc .nil (.chain staleCommitted_step.2)) (.chain staleReverted_step.2))
  have hagree := hserves.agree
  unfold HeadsAgree at hagree
  revert hagree
  decide +kernel

end UbtExex
