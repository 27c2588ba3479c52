import UbtExex.DeltaTable
import UbtExex.Startup

/-!
# A limited NOMT log

NOMT can undo its newest commits only.  The program opens it with rollbacks enabled and
leaves the length of its log at the default, the last 100 commits; a rollback that goes
further is refused, and the refusal is logged and ignored.  Each commit of a block adds one
commit to the log and each revert takes some off, so it is not the depth of one revert that
counts but what is left of the log.

A limit of `none` stands for a NOMT that forgets nothing.

## Main definitions

* `Disk.limitLog`, `Tracked.limitLog` — the older commits are forgotten.
* `LoggedStep` — one step of a node whose NOMT has a limited log.
* `LogHolds`, `StartHolds` — what a step and a startup need of the log.

## Main results

* `Shown.logged` — **one step that the log allows keeps NOMT in step with the ledger.**
* `nomtSynced_revert_iff` — a revert that it does not allow leaves NOMT behind.
* `nomtSynced_iff_logReaches` — **NOMT stays in sync along a run if and only if no revert goes
  back further than the log.**
-/

open Std

namespace UbtExex

/-! ### Forgetting commits -/

/-- The stores when NOMT can undo no more commits than a limit. -/
def Disk.limitLog (limit : Option ℕ) (d : Disk) : Disk := { d with nomt := d.nomt.limitTo limit }

/-- The node when NOMT can undo no more commits than a limit. -/
def Tracked.limitLog (limit : Option ℕ) (t : Tracked) : Tracked where
  machine := t.machine.update fun s => { s with nomt := s.nomt.limitTo limit }
  ledger := t.ledger
  highest := t.highest

@[simp] theorem Tracked.limitLog_none (t : Tracked) : t.limitLog none = t := rfl

@[simp] theorem Disk.limitLog_none (d : Disk) : d.limitLog none = d := rfl

/-- A commit of one block, or a revert, by a node whose NOMT has a limited log. -/
def LoggedStep (U : Ubt) (limit : Option ℕ) (base : ℕ × B256) (t : Tracked) (e : Event)
    (t' : Tracked) : Prop :=
  ∃ t₁, SingleStep U base t e t₁ ∧ t' = t₁.limitLog limit

/-- With a limit, a revert undoes no more commits than there are in the log. -/
def LogHolds (limit : Option ℕ) (t : Tracked) (e : Event) : Prop := limit ≠ none → LogReaches t e

/-- With a limit, NOMT is ahead of the stored head by no more commits than there are in the
log. -/
def StartHolds (limit : Option ℕ) (d : Disk) : Prop :=
  limit ≠ none → d.nomt.current.headBlock - headNumber d.db ≤ d.nomt.past.length

/-- Without a limit NOMT can undo every commit of the ledger. -/
def Unforgotten (limit : Option ℕ) (t : Tracked) : Prop := limit = none → HistoryKept t

section Steps

variable {U : Ubt} {base : ℕ × B256} {σ₀ : TreeKey → B256} {limit : Option ℕ} {t t' : Tracked}
  {e : Event}

/-- A step after which the log is not over the limit. -/
theorem LoggedStep.of_short (hstep : SingleStep U base t e t')
    (h : ∀ l, limit = some l → t'.machine.exex.nomt.past.length ≤ l) :
    LoggedStep U limit base t e t' := by
  refine ⟨t', hstep, ?_⟩
  unfold Tracked.limitLog Machine.update
  dsimp only
  rw [Versioned.limitTo_of_le h]

/-- With an empty ledger nothing is forgotten. -/
theorem Unforgotten.start (limit : Option ℕ) (m : Machine) : Unforgotten limit (.start m) :=
  fun _ => Nat.zero_le _

theorem Unforgotten.limitLog (h : Unforgotten limit t) : Unforgotten limit (t.limitLog limit) := by
  rintro rfl
  exact h rfl

theorem Unforgotten.step (h : Unforgotten limit t) (hf : Following base t)
    (hsingle : ∀ old, e = .revert old →
      ∀ c ∈ t.ledger.touched old.blocks.length, c.blocks.length = 1)
    (hstep : ChainStep U base t e t') : Unforgotten limit t' :=
  fun hnone => (h hnone).step hf hsingle hstep

/-- What a step needs of the log is there. -/
theorem LogHolds.reaches (h : LogHolds limit t e) (hall : Unforgotten limit t)
    (hsingle : ∀ old, e = .revert old →
      ∀ c ∈ t.ledger.touched old.blocks.length, c.blocks.length = 1)
    (hstep : ChainStep U base t e t') : LogReaches t e := by
  cases limit with
  | none => exact (hall rfl).logReaches hsingle hstep
  | some l => exact h (by simp)

theorem Shown.limitLog (hs : Shown base σ₀ t) (limit : Option ℕ) :
    Shown base σ₀ (t.limitLog limit) :=
  ⟨⟨⟨hs.pending, hs.linked, hs.tip, hs.nonempty⟩, hs.logical, hs.undoable⟩,
    Versioned.Tracks.limitTo hs.nomt limit⟩

/-- **One step that the log allows** keeps NOMT in step with the ledger. -/
theorem Shown.logged (hs : Shown base σ₀ t) (hunit : EventUnit t e) (hlog : LogReaches t e)
    (hstep : LoggedStep U limit base t e t') : Shown base σ₀ t' := by
  obtain ⟨t₁, hstep, rfl⟩ := hstep
  exact (hs.step hunit hlog hstep.2).limitLog limit

/-- **A revert that finds its rows leaves NOMT in sync exactly when the log reaches as far**:
otherwise the rollback is refused, and NOMT stays at the block that was the tip. -/
theorem nomtSynced_revert_iff {old : Chain} (hs : Shown base σ₀ t)
    (hunit : EventUnit t (.revert old)) (hstep : LoggedStep U limit base t (.revert old) t') :
    NomtSynced t'.machine.exex ↔ LogReaches t (.revert old) := by
  constructor
  · intro hsynced
    obtain ⟨t₁, ⟨-, hstep⟩, rfl⟩ := hstep
    cases hstep with
    | @revert m m' L hi _ hold hrun =>
      have hr := revert_ok U hrun
      by_contra hshort
      have hnone : m.exex.nomt.rollback old.blocks.length = none :=
        Versioned.rollback_eq_none_iff.mpr (Nat.lt_of_not_le hshort)
      -- NOMT is still at the old tip
      have hhead : (m'.exex.nomt.limitTo limit).current.headBlock = m'.exex.lastBlock :=
        hsynced.headBlock
      rw [Versioned.current_limitTo, hr.nomt, hnone, Option.getD_none, hr.lastBlock] at hhead
      have hcur : m.exex.nomt.current.headBlock = (tipOf base L.blocks).1 :=
        hs.nomt.current.headBlock
      have hdropped := congrArg Prod.fst (tip_dropped hs.linked hold)
      have htop := hs.linked.tip_eq
      have hbelow := (hs.linked.drop old.blocks.length).tip_eq
      rw [List.length_drop] at hbelow
      have hle := length_reverted_le hold
      have hpos : 0 < old.blocks.length := List.length_pos_of_ne_nil old.blocks_ne_nil
      have hblocks : Tracked.ledger ⟨m, L, hi⟩ = L := rfl
      rw [hblocks] at htop hbelow hdropped
      omega
  · intro hlog
    exact (hs.logged hunit hlog hstep).nomtSynced

end Steps

/-! ### Runs -/

/-- **NOMT stays in sync along a run if and only if no revert goes back further than the log**:
a run of single-block commits and reverts that find their rows, with any limit. -/
theorem nomtSynced_iff_logReaches {U : Ubt} {base : ℕ × B256} {σ₀ : TreeKey → B256}
    {limit : Option ℕ} {t₀ t : Tracked} {h : List (Tracked × Event)} (h₀ : Shown base σ₀ t₀)
    (hrun : Run (LoggedStep U limit base) t₀ h t) (hunit : ∀ p ∈ h, EventUnit p.1 p.2) :
    (NomtSynced t.machine.exex ∧ ∀ p ∈ h, NomtSynced p.1.machine.exex) ↔
      ∀ p ∈ h, LogReaches p.1 p.2 := by
  have hstep : ∀ t e t', Shown base σ₀ t → EventUnit t e ∧ LogReaches t e →
      LoggedStep U limit base t e t' → Shown base σ₀ t' :=
    fun _ _ _ hs hcond hstep => hs.logged hcond.1 hcond.2 hstep
  constructor
  · intro hgood
    have hneeds : ∀ t e t', Shown base σ₀ t → LoggedStep U limit base t e t' →
        EventUnit t e → NomtSynced t'.machine.exex → EventUnit t e ∧ LogReaches t e := by
      intro t e t' hs hstep hunit hsynced
      cases e with
      | commit bs es => exact ⟨hunit, trivial⟩
      | revert old => exact ⟨hunit, (nomtSynced_revert_iff hs hunit hstep).mp hsynced⟩
    have hboth := @Run.cond_of_good _ _ _ t₀ t h (Shown base σ₀)
      (fun t => NomtSynced t.machine.exex) (fun t e => EventUnit t e ∧ LogReaches t e) EventUnit
      h₀ (fun t e t' hs hlogged hcond => hstep t e t' hs hcond hlogged) hneeds hrun hunit hgood
    exact fun p hp => (hboth p hp).2
  · intro hlog
    obtain ⟨hlast, hall⟩ := hrun.invariant h₀ hstep fun p hp => ⟨hunit p hp, hlog p hp⟩
    exact ⟨hlast.nomtSynced, fun p hp => (hall p hp).nomtSynced⟩

end UbtExex
