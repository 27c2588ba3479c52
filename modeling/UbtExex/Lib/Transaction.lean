import Mathlib.Data.Nat.Notation
import UbtExex.Lib.Stateful

/-!
# Transactions over a store whose calls may fail

A store has its committed contents and, while a write transaction is open, the
copy that the transaction works on.  Programs use it through calls, which are
numbered as they are made; `fault` says which of them fail, and with what code.  A
call that fails has no effect.

`Does` describes a program from a given store, whatever calls fail: what holds when
it succeeds, what it leaves when it does not, and who is to blame.  A program that
succeeds has made no failing call, and one that fails has stopped at the first.

## Main definitions

* `Store`, `Session`, `call` — a store, a store in use, and one call to it.
* `guarded` — a program that drops its transaction on every way out.
* `Clean`, `Blamed`, `Does` — the calls that a run made, the reason it failed for,
  and the specification of a program.
* `Part`, `onPart` — a store inside a larger one, and programs on it.

## Main results

* `Does.bind`, `Does.foldlM`, `Does.forM`, `Does.forM_pure` — **sequences, and loops that
  an abstract loop follows.**
* `Does.call_bind` — what is to be shown of a single call.
* `Does.transact` — **a transaction takes effect as a whole or not at all.**
* `Does.onPart` — **a program on a part leaves the rest alone.**
-/

namespace Transaction

variable {σ φ ε ε' α β τ : Type}

/-- A store with at most one write transaction. -/
structure Store (σ : Type) where
  /-- The contents as the last commit left them. -/
  committed : σ
  /-- The copy that the open transaction works on. -/
  working : Option σ

/-- The store between transactions. -/
abbrev Store.closed (c : σ) : Store σ := ⟨c, none⟩

/-- The store inside a transaction. -/
abbrev Store.opened (c t : σ) : Store σ := ⟨c, some t⟩

/-- The store after an open transaction, if there is one, was given up. -/
def Store.abort (st : Store σ) : Store σ := ⟨st.committed, none⟩

/-- A store in use, with the number of calls made to it. -/
structure Session (σ : Type) where
  store : Store σ
  calls : ℕ

/-- One call: the code it failed with, or its result. -/
def call (fault : ℕ → Option φ) (f : Store σ → Except φ (α × Store σ)) :
    EStateM ε (Session σ) (Except φ α) := fun s =>
  match fault s.calls with
  | some c => .ok (.error c) ⟨s.store, s.calls + 1⟩
  | none =>
      match f s.store with
      | .error c => .ok (.error c) ⟨s.store, s.calls + 1⟩
      | .ok (a, st) => .ok (.ok a) ⟨st, s.calls + 1⟩

/-- Give up the transaction, if it is still open. -/
def drop : EStateM ε (Session σ) PUnit := fun s => .ok ⟨⟩ ⟨s.store.abort, s.calls⟩

/-- The scope of a transaction: it is dropped on every way out. -/
def guarded (x : EStateM ε (Session σ) α) : EStateM ε (Session σ) α := fun s =>
  match x s with
  | .ok a s' => .ok a ⟨s'.store.abort, s'.calls⟩
  | .error e s' => .error e ⟨s'.store.abort, s'.calls⟩

/-! ### The calls of a run -/

/-- No call from number `m` up to number `n` failed. -/
def Clean (fault : ℕ → Option φ) (m n : ℕ) : Prop := m ≤ n ∧ ∀ k, m ≤ k → k < n → fault k = none

variable {fault : ℕ → Option φ}

theorem Clean.refl (n : ℕ) : Clean fault n n := ⟨Nat.le_refl n, fun _ h h' => by omega⟩

theorem Clean.trans {l m n : ℕ} (h : Clean fault l m) (h' : Clean fault m n) : Clean fault l n := by
  refine ⟨Nat.le_trans h.1 h'.1, fun k hl hn => ?_⟩
  by_cases hk : k < m
  · exact h.2 k hl hk
  · exact h'.2 k (by omega) hn

theorem Clean.one {n : ℕ} (h : fault n = none) : Clean fault n (n + 1) := by
  refine ⟨by omega, fun k hl hn => ?_⟩
  obtain rfl : k = n := by omega
  exact h

/-- Why a run from call `m` to call `n` failed: for a reason of its own, or because
the last call did, which the error reports. -/
def Blamed (fault : ℕ → Option φ) (reports : φ → ε → Prop) (own : ε → Prop) (m n : ℕ)
    (e : ε) : Prop :=
  own e ∧ Clean fault m n ∨
    ∃ k c, n = k + 1 ∧ Clean fault m k ∧ fault k = some c ∧ reports c e

variable {reports : φ → ε → Prop} {own : ε → Prop}

theorem Blamed.trans {l m n : ℕ} {e : ε} (h : Clean fault l m)
    (h' : Blamed fault reports own m n e) : Blamed fault reports own l n e := by
  rcases h' with ⟨ho, hc⟩ | ⟨k, c, hn, hc, hf, hr⟩
  · exact Or.inl ⟨ho, h.trans hc⟩
  · exact Or.inr ⟨k, c, hn, h.trans hc, hf, hr⟩

theorem Blamed.imp {reports' : φ → ε' → Prop} {own' : ε' → Prop} {m n : ℕ} {e : ε} {e' : ε'}
    (hr : ∀ c, reports c e → reports' c e') (ho : own e → own' e')
    (h : Blamed fault reports own m n e) : Blamed fault reports' own' m n e' := by
  rcases h with ⟨h, hc⟩ | ⟨k, c, hn, hc, hf, h⟩
  · exact Or.inl ⟨ho h, hc⟩
  · exact Or.inr ⟨k, c, hn, hc, hf, hr c h⟩

/-! ### What a program does -/

/-- From the store `st`, whatever calls fail: a run that succeeds made no failing
call and ends as `post` says, and one that fails is to blame on its last call or on
`own`, and leaves what `fail` says. -/
structure Does (fault : ℕ → Option φ) (reports : φ → ε → Prop) (own : ε → Prop)
    (x : EStateM ε (Session σ) α) (st : Store σ) (post : α → Store σ → Prop)
    (fail : Store σ → Prop) : Prop where
  ok : ∀ {n a s}, x ⟨st, n⟩ = .ok a s → Clean fault n s.calls ∧ post a s.store
  error : ∀ {n e s}, x ⟨st, n⟩ = .error e s →
    Blamed fault reports own n s.calls e ∧ fail s.store

namespace Does

variable {st : Store σ} {post : α → Store σ → Prop} {fail : Store σ → Prop}

theorem pure {a : α} (h : post a st) : Does fault reports own (Pure.pure a) st post fail where
  ok hrun := by cases hrun; exact ⟨Clean.refl _, h⟩
  error hrun := by cases hrun

theorem throw {e : ε} (ho : own e) (hf : fail st) :
    Does fault reports own (MonadExcept.throw e) st post fail where
  ok hrun := by cases hrun
  error hrun := by cases hrun; exact ⟨Or.inl ⟨ho, Clean.refl _⟩, hf⟩

/-- **A sequence of two programs.** -/
theorem bind {x : EStateM ε (Session σ) α} {f : α → EStateM ε (Session σ) β}
    {mid : α → Store σ → Prop} {post : β → Store σ → Prop}
    (hx : Does fault reports own x st mid fail)
    (hf : ∀ a st', mid a st' → Does fault reports own (f a) st' post fail) :
    Does fault reports own (x >>= f) st post fail where
  ok {n b s} hrun := by
    obtain ⟨a, s', hxr, hfr⟩ := EStateM.bind_eq_ok.mp hrun
    obtain ⟨hc, hmid⟩ := hx.ok hxr
    obtain ⟨hc', hpost⟩ := (hf a s'.store hmid).ok hfr
    exact ⟨hc.trans hc', hpost⟩
  error {n e s} hrun := by
    rw [EStateM.bind_apply] at hrun
    cases hxr : x ⟨st, n⟩ with
    | ok a s' =>
      rw [hxr] at hrun
      obtain ⟨hc, hmid⟩ := hx.ok hxr
      obtain ⟨hb, hfail⟩ := (hf a s'.store hmid).error hrun
      exact ⟨hb.trans hc, hfail⟩
    | error e' s' =>
      rw [hxr] at hrun
      cases hrun
      exact hx.error hxr

theorem mono {x : EStateM ε (Session σ) α} {post' : α → Store σ → Prop} {fail' : Store σ → Prop}
    {own' : ε → Prop} (h : Does fault reports own x st post fail)
    (hp : ∀ a st', post a st' → post' a st') (hf : ∀ st', fail st' → fail' st')
    (ho : ∀ e, own e → own' e) : Does fault reports own' x st post' fail' where
  ok hrun := ⟨(h.ok hrun).1, hp _ _ (h.ok hrun).2⟩
  error hrun := ⟨(h.error hrun).1.imp (fun _ h => h) (ho _), hf _ (h.error hrun).2⟩

/-- The same program with its errors put into other words. -/
theorem adaptExcept {x : EStateM ε (Session σ) α} {g : ε → ε'} {reports' : φ → ε' → Prop}
    {own' : ε' → Prop} (h : Does fault reports own x st post fail)
    (hr : ∀ c e, reports c e → reports' c (g e)) (ho : ∀ e, own e → own' (g e)) :
    Does fault reports' own' (EStateM.adaptExcept g x) st post fail where
  ok {n a s} hrun := by
    unfold EStateM.adaptExcept at hrun
    split at hrun <;> cases hrun
    next hx => exact h.ok hx
  error {n e s} hrun := by
    unfold EStateM.adaptExcept at hrun
    split at hrun <;> cases hrun
    next hx => exact ⟨(h.error hx).1.imp (fun c => hr c _) (ho _), (h.error hx).2⟩

/-- **A call and what is made of its result.**  The code of a failing call must be
made an error of. -/
theorem call_bind {f : Store σ → Except φ (α × Store σ)}
    {g : Except φ α → EStateM ε (Session σ) β} {post : β → Store σ → Prop}
    (hok : ∀ a st', f st = .ok (a, st') → Does fault reports own (g (.ok a)) st' post fail)
    (hrefused : ∀ c, f st = .error c → Does fault reports own (g (.error c)) st post fail)
    (hfault : ∀ k c, fault k = some c → ∀ n, ∃ e st',
      g (.error c) ⟨st, n⟩ = .error e ⟨st', n⟩ ∧ reports c e ∧ fail st') :
    Does fault reports own (call fault f >>= g) st post fail := by
  -- the run continues with `g` after the one call, which failed or not
  have hstep : ∀ n, (call fault f >>= g) ⟨st, n⟩ = match fault n, f st with
      | some c, _ => g (.error c) ⟨st, n + 1⟩
      | none, .error c => g (.error c) ⟨st, n + 1⟩
      | none, .ok (a, st') => g (.ok a) ⟨st', n + 1⟩ := by
    intro n
    rw [EStateM.bind_apply]
    unfold call
    cases fault n <;> cases f st <;> rfl
  constructor
  · intro n b s hrun
    rw [hstep] at hrun
    cases hn : fault n with
    | some c =>
      obtain ⟨e, st', hg, -, -⟩ := hfault n c hn (n + 1)
      simp only [hn, hg] at hrun
      cases hrun
    | none =>
      cases hf : f st with
      | error c =>
        simp only [hn, hf] at hrun
        obtain ⟨hc, hpost⟩ := (hrefused c hf).ok hrun
        exact ⟨(Clean.one hn).trans hc, hpost⟩
      | ok r =>
        simp only [hn, hf] at hrun
        obtain ⟨hc, hpost⟩ := (hok r.1 r.2 hf).ok hrun
        exact ⟨(Clean.one hn).trans hc, hpost⟩
  · intro n e s hrun
    rw [hstep] at hrun
    cases hn : fault n with
    | some c =>
      obtain ⟨e', st', hg, hr, hfail⟩ := hfault n c hn (n + 1)
      simp only [hn, hg] at hrun
      cases hrun
      exact ⟨Or.inr ⟨n, c, rfl, Clean.refl n, hn, hr⟩, hfail⟩
    | none =>
      cases hf : f st with
      | error c =>
        simp only [hn, hf] at hrun
        obtain ⟨hb, hfail⟩ := (hrefused c hf).error hrun
        exact ⟨hb.trans (Clean.one hn), hfail⟩
      | ok r =>
        simp only [hn, hf] at hrun
        obtain ⟨hb, hfail⟩ := (hok r.1 r.2 hf).error hrun
        exact ⟨hb.trans (Clean.one hn), hfail⟩

/-- **A loop that an abstract loop follows**: when each round does to the store what
`step` does to the abstract state, and fails of its own only as `step` does or as
`own` allows, so do all the rounds together. -/
theorem foldlM {f : β → α → EStateM ε (Session σ) β} {step : τ → α → Except ε' τ}
    {R : τ → β → Store σ → Prop} {same : ε' → ε → Prop} {l : List α}
    (hf : ∀ a ∈ l, ∀ t b st, R t b st →
      Does fault reports (fun e => own e ∨ ∃ e', step t a = .error e' ∧ same e' e) (f b a) st
        (fun b' st' => ∃ t', step t a = .ok t' ∧ R t' b' st') fail) :
    ∀ {t : τ} {b : β} {st : Store σ}, R t b st →
      Does fault reports (fun e => own e ∨ ∃ e', l.foldlM step t = .error e' ∧ same e' e)
        (l.foldlM f b) st (fun b' st' => ∃ t', l.foldlM step t = .ok t' ∧ R t' b' st') fail := by
  induction l with
  | nil => intro t b st hR; exact pure ⟨t, rfl, hR⟩
  | cons a l ih =>
    obtain ⟨ha, hl⟩ := List.forall_mem_cons.mp hf
    intro t b st hR
    have hround : Does fault reports
        (fun e => own e ∨ ∃ e', (a :: l).foldlM step t = .error e' ∧ same e' e) (f b a) st
        (fun b' st' => ∃ t', step t a = .ok t' ∧ R t' b' st') fail := by
      refine (ha t b st hR).mono (fun _ _ h => h) (fun _ h => h) ?_
      rintro e (h | ⟨e', hs, he⟩)
      · exact Or.inl h
      · exact Or.inr ⟨e', by rw [List.foldlM_cons, hs]; rfl, he⟩
    have hrun : (a :: l).foldlM f b = f b a >>= fun b' => l.foldlM f b' := List.foldlM_cons
    rw [hrun]
    refine hround.bind fun b' st' => ?_
    rintro ⟨t', ht', hR'⟩
    have hfold : (a :: l).foldlM step t = l.foldlM step t' := by rw [List.foldlM_cons, ht']; rfl
    rw [hfold]
    exact ih hl hR'

/-- A loop without a result. -/
theorem forM {f : α → EStateM ε (Session σ) PUnit} {step : τ → α → Except ε' τ}
    {R : τ → Store σ → Prop} {same : ε' → ε → Prop} {l : List α}
    (hf : ∀ a ∈ l, ∀ t st, R t st →
      Does fault reports (fun e => own e ∨ ∃ e', step t a = .error e' ∧ same e' e) (f a) st
        (fun _ st' => ∃ t', step t a = .ok t' ∧ R t' st') fail)
    {t : τ} {st : Store σ} (hR : R t st) :
    Does fault reports (fun e => own e ∨ ∃ e', l.foldlM step t = .error e' ∧ same e' e)
      (l.forM f) st (fun _ st' => ∃ t', l.foldlM step t = .ok t' ∧ R t' st') fail := by
  have hforM : ∀ l : List α, l.forM f = l.foldlM (fun (_ : PUnit) a => f a) ⟨⟩ := by
    intro l
    induction l with
    | nil => rfl
    | cons a l ih =>
      rw [List.foldlM_cons]
      exact congrArg (f a >>= ·) (funext fun _ => ih)
  rw [hforM]
  exact foldlM (R := fun t _ st => R t st) (fun a ha t _ st h => hf a ha t st h) hR

/-- A loop whose abstract loop cannot fail. -/
theorem forM_pure {f : α → EStateM ε (Session σ) PUnit} {step : τ → α → τ}
    {R : τ → Store σ → Prop} {l : List α}
    (hf : ∀ a ∈ l, ∀ t st, R t st →
      Does fault reports own (f a) st (fun _ st' => R (step t a) st') fail)
    {t : τ} {st : Store σ} (hR : R t st) :
    Does fault reports own (l.forM f) st (fun _ st' => R (l.foldl step t) st') fail := by
  let step' : τ → α → Except Empty τ := fun t a => .ok (step t a)
  have hf' : ∀ a ∈ l, ∀ t st, R t st → Does fault reports
      (fun e => own e ∨ ∃ e', step' t a = .error e' ∧ False) (f a) st
      (fun _ st' => ∃ t', step' t a = .ok t' ∧ R t' st') fail := fun a ha t st hR =>
    (hf a ha t st hR).mono (fun _ _ h => ⟨_, rfl, h⟩) (fun _ h => h) (fun _ h => Or.inl h)
  have hfold : l.foldlM step' t = .ok (l.foldl step t) := List.foldlM_pure
  refine (forM hf' hR).mono (fun _ st' => ?_) (fun _ h => h) (fun e => ?_)
  · rintro ⟨t', ht', hR'⟩
    rw [hfold] at ht'
    exact Except.ok.inj ht' ▸ hR'
  · rintro (h | ⟨-, -, h⟩)
    · exact h
    · exact h.elim

/-! ### Transactions -/

theorem guarded {x : EStateM ε (Session σ) α} (h : Does fault reports own x st post fail) :
    Does fault reports own (Transaction.guarded x) st
      (fun a st' => ∃ st₁, post a st₁ ∧ st' = st₁.abort)
      (fun st' => ∃ st₁, fail st₁ ∧ st' = st₁.abort) where
  ok {n a s} hrun := by
    unfold Transaction.guarded at hrun
    split at hrun <;> cases hrun
    next s' hx => exact ⟨(h.ok hx).1, s'.store, (h.ok hx).2, rfl⟩
  error {n e s} hrun := by
    unfold Transaction.guarded at hrun
    split at hrun <;> cases hrun
    next s' hx => exact ⟨(h.error hx).1, s'.store, (h.error hx).2, rfl⟩

/-- **A transaction takes effect as a whole or not at all**, if it is opened on the
committed contents, its body leaves these alone, and its commit puts the copy in
their place. -/
theorem transact {γ : Type} {start : EStateM ε (Session σ) γ} {body : γ → EStateM ε (Session σ) α}
    {commit : γ → EStateM ε (Session σ) PUnit} {c : σ} {post : α → σ → Prop}
    (hstart : Does fault reports own start (.closed c) (fun _ st => st = .opened c c)
      (· = .closed c))
    (hbody : ∀ txn, Does fault reports own (body txn) (.opened c c)
      (fun a st => ∃ t, st = .opened c t ∧ post a t) (·.committed = c))
    (hcommit : ∀ txn t, Does fault reports own (commit txn) (.opened c t)
      (fun _ st => st = .closed t) (·.committed = c)) :
    Does fault reports own
      (start >>= fun txn => Transaction.guarded
        (body txn >>= fun a => commit txn >>= fun _ => Pure.pure a))
      (.closed c) (fun a st => ∃ t, st = .closed t ∧ post a t) (· = .closed c) := by
  refine hstart.bind fun txn st hst => ?_
  subst hst
  have hall : Does fault reports own (body txn >>= fun a => commit txn >>= fun _ => Pure.pure a)
      (.opened c c) (fun a st => ∃ t, st = .closed t ∧ post a t) (·.committed = c) := by
    refine (hbody txn).bind fun a st => ?_
    rintro ⟨t, rfl, hpost⟩
    refine (hcommit txn t).bind fun _ st hst => ?_
    subst hst
    exact pure ⟨t, rfl, hpost⟩
  refine hall.guarded.mono (fun a st => ?_) (fun st => ?_) (fun _ h => h)
  · rintro ⟨st₁, ⟨t, rfl, hpost⟩, rfl⟩
    exact ⟨t, rfl, hpost⟩
  · rintro ⟨st₁, rfl, rfl⟩
    rfl

end Does

/-! ### A store inside a larger one -/

/-- A part of larger contents, which can be replaced. -/
structure Part (ρ σ : Type) where
  get : ρ → σ
  set : ρ → σ → ρ
  set_get : ∀ c, set c (get c) = c

variable {ρ : Type}

/-- The store of a part. -/
def Store.part (P : Part ρ σ) (st : Store ρ) : Store σ := ⟨P.get st.committed, st.working.map P.get⟩

/-- The larger store with another store for the part. -/
def Store.replace (P : Part ρ σ) (st : Store ρ) (st' : Store σ) : Store ρ :=
  ⟨P.set st.committed st'.committed, st'.working.map (P.set st.committed)⟩

/-- A program on the part. -/
def onPart (P : Part ρ σ) (x : EStateM ε (Session σ) α) : EStateM ε (Session ρ) α := fun s =>
  match x ⟨s.store.part P, s.calls⟩ with
  | .ok a s' => .ok a ⟨s.store.replace P s'.store, s'.calls⟩
  | .error e s' => .error e ⟨s.store.replace P s'.store, s'.calls⟩

/-- **A program on a part leaves the rest alone**, and what it does to the part it does
to the part of the larger store; `fault'` is the one schedule for all parts. -/
theorem Does.onPart {φ' : Type} {fault' : ℕ → Option φ'} {reports' : φ' → ε → Prop}
    {P : Part ρ σ} {x : EStateM ε (Session σ) α} {c : ρ} {post : α → Store σ → Prop}
    (hnone : ∀ n, fault n = none → fault' n = none)
    (hsome : ∀ n f e, fault n = some f → reports f e → ∃ f', fault' n = some f' ∧ reports' f' e)
    (h : Does fault reports own x (.closed (P.get c)) post (· = .closed (P.get c))) :
    Does fault' reports' own (onPart P x) (.closed c)
      (fun a st => ∃ st', post a st' ∧ st = (Store.closed c).replace P st') (· = .closed c) := by
  have hclean : ∀ {m n}, Clean fault m n → Clean fault' m n := fun hc =>
    ⟨hc.1, fun k hm hn => hnone k (hc.2 k hm hn)⟩
  constructor
  · intro n a s hrun
    unfold Transaction.onPart at hrun
    split at hrun <;> cases hrun
    next s' hx => exact ⟨hclean (h.ok hx).1, s'.store, (h.ok hx).2, rfl⟩
  · intro n e s hrun
    unfold Transaction.onPart at hrun
    split at hrun <;> cases hrun
    next s' hx =>
      obtain ⟨hblame, hst⟩ := h.error hx
      constructor
      · rcases hblame with ⟨ho, hc⟩ | ⟨k, f, hn, hc, hf, hr⟩
        · exact Or.inl ⟨ho, hclean hc⟩
        · obtain ⟨f', hf', hr'⟩ := hsome k f e hf hr
          exact Or.inr ⟨k, f', hn, hclean hc, hf', hr'⟩
      · have hst : s'.store = .closed (P.get c) := hst
        rw [hst]
        simp [Store.replace, P.set_get]

end Transaction
