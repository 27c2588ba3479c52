import UbtExex.Lib.History
import UbtExex.Lib.Transaction

/-!
# Stores that follow a typed one, call by call

A store of bytes follows a typed one when each of its calls does: from contents that
represent a typed value it succeeds with the typed answer and the typed result, or it
fails and changes nothing.  Then so do whole runs: a process makes calls one after the
other, and one process comes after the other.

A program that works on the typed value is known by the log of its writes.  When each
write is one call, or leaves the value alone, the log can be made on the store.

## Main definitions

* `Follows` — every call follows the typed one.
* `runCalls`, `runProcesses`, `Explained`, `Lived` — runs, and their typed reading.
* `Mirrors`, `performAll`, `AtMoment` — a log of typed writes, made by calls.
* `performEither`, `applyEither` — two stores side by side.

## Main results

* `Follows.explained`, `Follows.lived` — **every run is explained by the typed store.**
* `Follows.performAll` — **whatever call fails first, it leaves what some moment of the
  log had.**
* `Follows.either` — **two stores that follow typed ones follow the pair of them.**
-/

open Transaction

namespace Calls

variable {σ φ ε ε' κ α δ π ω : Type}

/-! ### Calls that follow typed ones -/

/-- After a call the contents represent the typed result. -/
abbrev Followed (R : σ → δ → Prop) (apply : δ → κ → Except ε' (α × δ)) (d : δ) (call : κ) (a : α)
    (st : Store σ) : Prop :=
  ∃ c' d', st = .closed c' ∧ apply d call = .ok (a, d') ∧ R c' d'

/-- Every call follows the typed one: it gives the typed answer, or changes nothing. -/
def Follows (fault : ℕ → Option φ) (reports : φ → ε → Prop) (own : δ → κ → ε → Prop)
    (R : σ → δ → Prop) (perform : κ → EStateM ε (Session σ) α)
    (apply : δ → κ → Except ε' (α × δ)) : Prop :=
  ∀ call c d, R c d → Does fault reports (own d call) (perform call) (.closed c)
    (Followed R apply d call) (· = .closed c)

variable {fault : ℕ → Option φ} {reports : φ → ε → Prop} {own : δ → κ → ε → Prop}
  {R : σ → δ → Prop} {perform : κ → EStateM ε (Session σ) α} {apply : δ → κ → Except ε' (α × δ)}

/-! ### Runs of calls -/

/-- The calls of a process, one after the other, with what they came to. -/
def runCalls (perform : κ → EStateM ε (Session σ) α) :
    List κ → Session σ → List (κ × Except ε α) × Session σ
  | [], s => ([], s)
  | call :: calls, s =>
      match perform call s with
      | .ok a s' => ((call, .ok a) :: (runCalls perform calls s').1, (runCalls perform calls s').2)
      | .error e s' =>
          ((call, .error e) :: (runCalls perform calls s').1, (runCalls perform calls s').2)

/-- The log of a process, read from the typed store and from the numbers of the
operations that its calls took. -/
inductive Explained (fault : ℕ → Option φ) (reports : φ → ε → Prop) (own : δ → κ → ε → Prop)
    (apply : δ → κ → Except ε' (α × δ)) : δ → ℕ → List (κ × Except ε α) → δ → ℕ → Prop
  | nil {d n} : Explained fault reports own apply d n [] d n
  /-- None of its operations failed; it answered as the typed store does, and changed
  it. -/
  | answered {d d' d'' n m k call a log} (hc : Clean fault n m)
      (ha : apply d call = .ok (a, d'))
      (hlog : Explained fault reports own apply d' m log d'' k) :
      Explained fault reports own apply d n ((call, .ok a) :: log) d'' k
  /-- It changed nothing, and failed for a reason. -/
  | failed {d d' n m k call e log} (hb : Blamed fault reports (own d call) n m e)
      (hlog : Explained fault reports own apply d m log d' k) :
      Explained fault reports own apply d n ((call, .error e) :: log) d' k

/-- **The calls of a process are explained by the typed store.** -/
theorem Follows.explained (h : Follows fault reports own R perform apply) (calls : List κ)
    {c : σ} {d : δ} {n : ℕ} (hR : R c d) :
    ∃ c' d' n', (runCalls perform calls ⟨.closed c, n⟩).2 = ⟨.closed c', n'⟩ ∧ R c' d' ∧
      Explained fault reports own apply d n (runCalls perform calls ⟨.closed c, n⟩).1 d' n' := by
  induction calls generalizing c d n with
  | nil => exact ⟨c, d, n, rfl, hR, .nil⟩
  | cons call calls ih =>
    have hdoes := h call c d hR
    unfold runCalls
    cases hrun : perform call ⟨.closed c, n⟩ with
    | ok a s' =>
      obtain ⟨st, m⟩ := s'
      obtain ⟨hclean, c₁, d₁, rfl, happly, h₁⟩ := hdoes.ok hrun
      obtain ⟨c', d', n', hs, hrep, hlog⟩ := ih (n := m) h₁
      exact ⟨c', d', n', hs, hrep, .answered hclean happly hlog⟩
    | error e s' =>
      obtain ⟨st, m⟩ := s'
      obtain ⟨hblame, rfl⟩ := hdoes.error hrun
      obtain ⟨c', d', n', hs, hrep, hlog⟩ := ih (n := m) hR
      exact ⟨c', d', n', hs, hrep, .failed hblame hlog⟩

/-! ### Runs of processes -/

/-- What a process saw: how opening the store ended, and what its calls came to. -/
abbrev Log (ε κ α : Type) := Except ε PUnit × List (κ × Except ε α)

/-- One process after the other on the same files: how each opens them, and its calls.
One that cannot open them makes no call. -/
def runProcesses (start : π → EStateM ε (Session σ) PUnit)
    (perform : κ → EStateM ε (Session σ) α) :
    List (π × List κ) → Session σ → List (Log ε κ α) × Session σ
  | [], s => ([], s)
  | (p, calls) :: ps, s =>
      match start p s with
      | .ok u s' =>
          let (log, s'') := runCalls perform calls s'
          ((.ok u, log) :: (runProcesses start perform ps s'').1,
            (runProcesses start perform ps s'').2)
      | .error e s' =>
          ((.error e, []) :: (runProcesses start perform ps s').1,
            (runProcesses start perform ps s').2)

/-- The logs of the processes, read from the typed store. -/
inductive Lived (fault : ℕ → Option φ) (reports : φ → ε → Prop) (own : δ → κ → ε → Prop)
    (shut : ε → Prop) (apply : δ → κ → Except ε' (α × δ)) :
    δ → ℕ → List (Log ε κ α) → δ → ℕ → Prop
  | nil {d n} : Lived fault reports own shut apply d n [] d n
  | opened {d d' d'' n m k l log logs} (hc : Clean fault n m)
      (hlog : Explained fault reports own apply d m log d' k)
      (hlogs : Lived fault reports own shut apply d' k logs d'' l) :
      Lived fault reports own shut apply d n ((.ok ⟨⟩, log) :: logs) d'' l
  /-- A process that could not open the store left it as it was. -/
  | refused {d d' n m k e logs} (hb : Blamed fault reports shut n m e)
      (hlogs : Lived fault reports own shut apply d m logs d' k) :
      Lived fault reports own shut apply d n ((.error e, []) :: logs) d' k

/-- **The processes are explained by the typed store**, if opening the files leaves
what they represent; `Kept` is what holds of the files between processes. -/
theorem Follows.lived (h : Follows fault reports own R perform apply)
    {start : π → EStateM ε (Session σ) PUnit} {shut : ε → Prop} {Kept : σ → δ → Prop}
    (hstart : ∀ p c d, Kept c d → Does fault reports shut (start p) (.closed c)
      (fun _ st => ∃ c', st = .closed c' ∧ R c' d) (fun st => ∃ c', st = .closed c' ∧ Kept c' d))
    (hkept : ∀ {c d}, R c d → Kept c d) (ps : List (π × List κ)) {c : σ} {d : δ} {n : ℕ}
    (hc : Kept c d) :
    ∃ c' d' n', (runProcesses start perform ps ⟨.closed c, n⟩).2 = ⟨.closed c', n'⟩ ∧
      Kept c' d' ∧ Lived fault reports own shut apply d n
        (runProcesses start perform ps ⟨.closed c, n⟩).1 d' n' := by
  induction ps generalizing c d n with
  | nil => exact ⟨c, d, n, rfl, hc, .nil⟩
  | cons p ps ih =>
    obtain ⟨p, calls⟩ := p
    have hopen := hstart p c d hc
    unfold runProcesses
    cases hrun : start p ⟨.closed c, n⟩ with
    | ok u s' =>
      obtain ⟨st, m⟩ := s'
      obtain ⟨hclean, c₁, rfl, h₁⟩ := hopen.ok hrun
      obtain ⟨c₂, d₂, n₂, hs₂, h₂, hlog⟩ := h.explained calls (n := m) h₁
      obtain ⟨c', d', n', hs, hrep, hlogs⟩ := ih (n := n₂) (hkept h₂)
      simp only [hs₂]
      exact ⟨c', d', n', hs, hrep, .opened hclean hlog hlogs⟩
    | error e s' =>
      obtain ⟨st, m⟩ := s'
      obtain ⟨hblame, c₁, rfl, h₁⟩ := hopen.error hrun
      obtain ⟨c', d', n', hs, hrep, hlogs⟩ := ih (n := m) h₁
      exact ⟨c', d', n', hs, hrep, .refused hblame hlogs⟩

/-! ### Logs of typed writes -/

/-- The calls that make the writes of a log; both newest first.  A write that leaves
the typed value alone needs none. -/
inductive Mirrors (before after : ω → δ) (apply : δ → κ → Except ε' (α × δ)) :
    List ω → List κ → Prop
  | nil : Mirrors before after apply [] []
  | beside {w ws cs} (h : after w = before w) (hs : Mirrors before after apply ws cs) :
      Mirrors before after apply (w :: ws) cs
  | call {w ws cs call a} (h : apply (before w) call = .ok (a, after w))
      (hs : Mirrors before after apply ws cs) : Mirrors before after apply (w :: ws) (call :: cs)

/-- Calls one after the other; the first that fails ends the process. -/
def performAll (perform : κ → EStateM ε (Session σ) α) (calls : List κ) :
    EStateM ε (Session σ) PUnit :=
  calls.forM fun call => do
    let _ ← perform call

/-- The contents are those of a moment of the log: before its first write, or after
one. -/
def AtMoment (R : σ → δ → Prop) (after : ω → δ) (d : δ) (ws : List ω) (st : Store σ) : Prop :=
  ∃ c, st = .closed c ∧ (R c d ∨ ∃ w ∈ ws, R c (after w))

variable {before after : ω → δ} {d : δ} {ws : List ω}

theorem AtMoment.cons {st : Store σ} (h : AtMoment R after d ws st) (w : ω) :
    AtMoment R after d (w :: ws) st := by
  obtain ⟨c, rfl, hc⟩ := h
  refine ⟨c, rfl, hc.imp_right ?_⟩
  rintro ⟨w', hw', hrep⟩
  exact ⟨w', List.mem_cons_of_mem w hw', hrep⟩

theorem atMoment_end {c : σ} (h : R c (History.stateAt after d ws)) :
    AtMoment R after d ws (.closed c) := by
  cases ws with
  | nil => exact ⟨c, rfl, Or.inl h⟩
  | cons w ws => exact ⟨c, rfl, Or.inr ⟨w, List.mem_cons_self, h⟩⟩

/-- **The calls of a log**: they lead to its end, or the first that fails leaves what a
moment of it had.  A call that the typed store answers fails for `reason` only. -/
theorem Follows.performAll (h : Follows fault reports own R perform apply) {reason : ε → Prop}
    (hown : ∀ {d d' call a e}, apply d call = .ok (a, d') → own d call e → reason e)
    {calls : List κ} (hm : Mirrors before after apply ws calls)
    (hchain : History.Chained before after d ws) {c : σ} (hc : R c d) :
    Does fault reports reason (performAll perform calls.reverse) (.closed c)
      (fun _ st => ∃ c', st = .closed c' ∧ R c' (History.stateAt after d ws))
      (AtMoment R after d ws) := by
  induction hm with
  | nil => exact Does.pure ⟨c, rfl, hc⟩
  | @beside w ws cs hsame hs ih =>
    have hbefore : before w = History.stateAt after d ws := hchain.1
    refine (ih hchain.2).mono (fun _ st => ?_) (fun st hst => hst.cons w) (fun _ h => h)
    rintro ⟨c', rfl, hc'⟩
    rw [← hbefore, ← hsame] at hc'
    exact ⟨c', rfl, hc'⟩
  | @call w ws cs call a happly hs ih =>
    have hbefore : before w = History.stateAt after d ws := hchain.1
    have hsnoc : Calls.performAll perform (call :: cs).reverse =
        Calls.performAll perform cs.reverse >>= fun _ => Calls.performAll perform [call] := by
      unfold Calls.performAll
      rw [List.reverse_cons]
      exact List.forM_append
    rw [hsnoc]
    refine ((ih hchain.2).mono (fun _ _ h => h) (fun st hst => hst.cons w) (fun _ h => h)).bind ?_
    rintro _ st ⟨c', rfl, hc'⟩
    -- a last call that fails leaves the contents that the write before it left
    have hlast : Does fault reports reason (perform call) (.closed c')
        (Followed R apply (before w) call) (AtMoment R after d (w :: ws)) :=
      (h call c' _ (hbefore ▸ hc')).mono (fun _ _ h => h)
        (fun st hst => hst ▸ (atMoment_end hc').cons w) (fun e he => hown happly he)
    have hround : Does fault reports reason (do let _ ← perform call) (.closed c')
        (fun _ st => ∃ c'', st = .closed c'' ∧ R c'' (after w))
        (AtMoment R after d (w :: ws)) := by
      refine hlast.bind ?_
      rintro a' st ⟨c'', d', rfl, happly', hrep⟩
      rw [happly] at happly'
      cases happly'
      exact Does.pure ⟨c'', rfl, hrep⟩
    exact hround.bind fun _ st hst => Does.pure hst

/-! ### Two stores side by side -/

section Pair

variable {σ₁ σ₂ φ₁ φ₂ ε₁ ε₂ κ₁ κ₂ α₁ α₂ δ₁ δ₂ : Type}

/-- The first of two stores. -/
def first : Part (σ₁ × σ₂) σ₁ := ⟨Prod.fst, fun c c₁ => (c₁, c.2), fun _ => rfl⟩

/-- The second of two stores. -/
def second : Part (σ₁ × σ₂) σ₂ := ⟨Prod.snd, fun c c₂ => (c.1, c₂), fun _ => rfl⟩

/-- A call of one of two stores. -/
def performEither (perform₁ : κ₁ → EStateM ε (Session σ₁) α₁)
    (perform₂ : κ₂ → EStateM ε (Session σ₂) α₂) :
    κ₁ ⊕ κ₂ → EStateM ε (Session (σ₁ × σ₂)) (α₁ ⊕ α₂)
  | .inl call => onPart first do return .inl (← perform₁ call)
  | .inr call => onPart second do return .inr (← perform₂ call)

/-- A call of one of two typed stores. -/
def applyEither (apply₁ : δ₁ → κ₁ → Except ε₁ (α₁ × δ₁)) (apply₂ : δ₂ → κ₂ → Except ε₂ (α₂ × δ₂))
    (d : δ₁ × δ₂) : κ₁ ⊕ κ₂ → Except (ε₁ ⊕ ε₂) ((α₁ ⊕ α₂) × (δ₁ × δ₂))
  | .inl call =>
      match apply₁ d.1 call with
      | .ok (a, d₁) => .ok (.inl a, (d₁, d.2))
      | .error e => .error (.inl e)
  | .inr call =>
      match apply₂ d.2 call with
      | .ok (a, d₂) => .ok (.inr a, (d.1, d₂))
      | .error e => .error (.inr e)

/-- The reasons of its own for which a call of one of two stores fails. -/
def ownEither (own₁ : δ₁ → κ₁ → ε → Prop) (own₂ : δ₂ → κ₂ → ε → Prop) (d : δ₁ × δ₂) :
    κ₁ ⊕ κ₂ → ε → Prop
  | .inl call => own₁ d.1 call
  | .inr call => own₂ d.2 call

/-- **Two stores that follow typed ones follow the pair of them**, under one schedule of
failures for both. -/
theorem Follows.either {fault₁ : ℕ → Option φ₁} {fault₂ : ℕ → Option φ₂}
    {reports₁ : φ₁ → ε → Prop} {reports₂ : φ₂ → ε → Prop} {own₁ : δ₁ → κ₁ → ε → Prop}
    {own₂ : δ₂ → κ₂ → ε → Prop} {R₁ : σ₁ → δ₁ → Prop} {R₂ : σ₂ → δ₂ → Prop}
    {perform₁ : κ₁ → EStateM ε (Session σ₁) α₁} {perform₂ : κ₂ → EStateM ε (Session σ₂) α₂}
    {apply₁ : δ₁ → κ₁ → Except ε₁ (α₁ × δ₁)} {apply₂ : δ₂ → κ₂ → Except ε₂ (α₂ × δ₂)}
    (h₁ : Follows fault₁ reports₁ own₁ R₁ perform₁ apply₁)
    (h₂ : Follows fault₂ reports₂ own₂ R₂ perform₂ apply₂)
    (hnone₁ : ∀ n, fault₁ n = none → fault n = none)
    (hnone₂ : ∀ n, fault₂ n = none → fault n = none)
    (hsome₁ : ∀ n f e, fault₁ n = some f → reports₁ f e → ∃ f', fault n = some f' ∧ reports f' e)
    (hsome₂ : ∀ n f e, fault₂ n = some f → reports₂ f e → ∃ f', fault n = some f' ∧ reports f' e) :
    Follows fault reports (ownEither own₁ own₂) (fun c d => R₁ c.1 d.1 ∧ R₂ c.2 d.2)
      (performEither perform₁ perform₂) (applyEither apply₁ apply₂) := by
  rintro call ⟨c₁, c₂⟩ ⟨d₁, d₂⟩ ⟨hc₁, hc₂⟩
  cases call with
  | inl call =>
    have hcall : Does fault₁ reports₁ (own₁ d₁ call)
        (do return .inl (← perform₁ call) : EStateM ε (Session σ₁) (α₁ ⊕ α₂)) (.closed c₁)
        (fun a st => ∃ c' a' d', st = .closed c' ∧ a = .inl a' ∧ apply₁ d₁ call = .ok (a', d') ∧
          R₁ c' d') (· = .closed c₁) := by
      refine (h₁ call c₁ d₁ hc₁).bind ?_
      rintro a st ⟨c', d', rfl, happly, hrep⟩
      exact Does.pure ⟨c', a, d', rfl, rfl, happly, hrep⟩
    refine (Does.onPart (P := first) (c := (c₁, c₂)) hnone₁ hsome₁ hcall).mono ?_
      (fun _ h => h) (fun _ h => h)
    rintro a st ⟨st', ⟨c', a', d', rfl, rfl, happly, hrep⟩, rfl⟩
    exact ⟨(c', c₂), (d', d₂), rfl, by simp only [applyEither, happly], hrep, hc₂⟩
  | inr call =>
    have hcall : Does fault₂ reports₂ (own₂ d₂ call)
        (do return .inr (← perform₂ call) : EStateM ε (Session σ₂) (α₁ ⊕ α₂)) (.closed c₂)
        (fun a st => ∃ c' a' d', st = .closed c' ∧ a = .inr a' ∧ apply₂ d₂ call = .ok (a', d') ∧
          R₂ c' d') (· = .closed c₂) := by
      refine (h₂ call c₂ d₂ hc₂).bind ?_
      rintro a st ⟨c', d', rfl, happly, hrep⟩
      exact Does.pure ⟨c', a, d', rfl, rfl, happly, hrep⟩
    refine (Does.onPart (P := second) (c := (c₁, c₂)) hnone₂ hsome₂ hcall).mono ?_
      (fun _ h => h) (fun _ h => h)
    rintro a st ⟨st', ⟨c', a', d', rfl, rfl, happly, hrep⟩, rfl⟩
    exact ⟨(c₁, c'), (d₁, d'), rfl, by simp only [applyEither, happly], hc₁, hrep⟩

end Pair

end Calls
