import CuteCore.Library.Hoare

/-!
# Partial specifications and frames

`wlp` says what holds if a program returns; a fault satisfies it. A program
keeps a relation between states when every run that returns relates
its first state to its last one. For a preorder this is closed under sequencing,
choice and loops, so a frame property of a large program follows from that of
its primitive steps.
-/

namespace Hoare

variable {σ τ ε α β : Type} {R : σ → σ → Prop}

/-- If the program returns, its value and final state satisfy `post`. -/
def wlp (program : Prog σ ε α) (post : α → σ → Prop) (s : σ) : Prop :=
  ∀ a after, Returns program s a after → post a after

/-- A result that was computed. -/
theorem returns_of_toOption {program : Prog σ ε α} {s : σ} {result : α × σ}
    (computed : (program s).toOption = some result) : Returns program s result.1 result.2 := by
  cases ran : program s with
  | error e =>
    rw [ran] at computed
    cases computed
  | ok value =>
    rw [ran] at computed
    rw [Returns, ran, Option.some.inj computed]

theorem wlp_of_wp {program : Prog σ ε α} {post : α → σ → Prop} {s : σ}
    (returns : wp program post s) :
    wlp program post s :=
  fun _ _ returned => returns.of_returns returned

theorem wlp_mono {program : Prog σ ε α} {post weaker : α → σ → Prop} {s : σ}
    (holds : wlp program post s) (implied : ∀ a after, post a after → weaker a after) :
    wlp program weaker s :=
  fun a after returned => implied a after (holds a after returned)

@[simp] theorem wlp_pure {a : α} {post : α → σ → Prop} {s : σ} :
    wlp (pure a : Prog σ ε α) post s ↔ post a s := by
  simp [wlp]

@[simp] theorem wlp_throw {e : ε} {post : α → σ → Prop} {s : σ} :
    wlp (throw e : Prog σ ε α) post s ↔ True := by
  simp [wlp]

theorem wlp_bind {program : Prog σ ε α} {rest : α → Prog σ ε β} {post : β → σ → Prop} {s : σ} :
    wlp (program >>= rest) post s ↔ wlp program (fun a mid => wlp (rest a) post mid) s := by
  constructor
  · intro holds a mid first b after second
    exact holds b after (returns_bind.mpr ⟨a, mid, first, second⟩)
  · intro holds b after returned
    obtain ⟨a, mid, first, second⟩ := returns_bind.mp returned
    exact holds a mid first b after second

/-- Prove a sequence from a partial specification of its first part. -/
theorem wlp_seq {program : Prog σ ε α} {rest : α → Prog σ ε β} {spec : α → σ → Prop}
    {post : β → σ → Prop} {s : σ} (first : wlp program spec s)
    (second : ∀ a mid, spec a mid → wlp (rest a) post mid) : wlp (program >>= rest) post s :=
  wlp_bind.mpr (wlp_mono first second)

@[simp] theorem wlp_get {post : σ → σ → Prop} {s : σ} :
    wlp (get : Prog σ ε σ) post s ↔ post s s := by
  simp [wlp]

@[simp] theorem wlp_set {value : σ} {post : PUnit → σ → Prop} {s : σ} :
    wlp (set value : Prog σ ε PUnit) post s ↔ post ⟨⟩ value := by
  simp only [wlp, returns_set]
  exact ⟨fun holds => holds ⟨⟩ value rfl, fun met _ _ same => same ▸ met⟩

@[simp] theorem wlp_modify {f : σ → σ} {post : PUnit → σ → Prop} {s : σ} :
    wlp (modify f : Prog σ ε PUnit) post s ↔ post ⟨⟩ (f s) := by
  simp only [wlp, returns_modify]
  exact ⟨fun holds => holds ⟨⟩ (f s) rfl, fun met _ _ same => same ▸ met⟩

theorem wlp_ite {c : Prop} [Decidable c] {yes no : Prog σ ε α} {post : α → σ → Prop} {s : σ} :
    wlp (if c then yes else no) post s ↔ if c then wlp yes post s else wlp no post s := by
  split <;> rfl

theorem wlp_onlyIf {c : Prop} [Decidable c] {program : Prog σ ε Unit} {post : Unit → σ → Prop}
    {s : σ} : wlp (onlyIf c program) post s ↔ if c then wlp program post s else post () s := by
  unfold onlyIf
  split
  · rfl
  · exact wlp_pure

/-- Every run that returns relates its first state to its last. -/
structure Keeps (R : σ → σ → Prop) (program : Prog σ ε α) : Prop where
  related : ∀ s a after, Returns program s a after → R s after

theorem Keeps.wlp {program : Prog σ ε α} (kept : Keeps R program) (s : σ) :
    Hoare.wlp program (fun _ after => R s after) s :=
  fun a after returned => kept.related s a after returned

namespace Keeps

theorem pure_keeps [Std.Refl R] (a : α) : Keeps R (pure a : Prog σ ε α) := by
  refine ⟨fun s b after returned => ?_⟩
  obtain ⟨-, rfl⟩ := returns_pure.mp returned
  exact Std.Refl.refl s

theorem throw_keeps (e : ε) : Keeps R (throw e : Prog σ ε α) := by
  refine ⟨fun s a after returned => ?_⟩
  exact absurd (returns_throw.mp returned) not_false

theorem get_keeps [Std.Refl R] : Keeps R (get : Prog σ ε σ) := by
  refine ⟨fun s a after returned => ?_⟩
  obtain ⟨-, rfl⟩ := returns_get.mp returned
  exact Std.Refl.refl s

theorem modify_keeps {f : σ → σ} (related : ∀ s, R s (f s)) :
    Keeps R (modify f : Prog σ ε PUnit) := by
  refine ⟨fun s a after returned => ?_⟩
  obtain rfl := returns_modify.mp returned
  exact related s

theorem bind_keeps [IsTrans σ R] {program : Prog σ ε α} {rest : α → Prog σ ε β}
    (first : Keeps R program) (second : ∀ a, Keeps R (rest a)) : Keeps R (program >>= rest) := by
  refine ⟨fun s b after returned => ?_⟩
  obtain ⟨a, mid, ran, returned⟩ := returns_bind.mp returned
  exact IsTrans.trans s mid after (first.related s a mid ran) ((second a).related mid b after returned)

theorem ite_keeps {c : Prop} [Decidable c] {yes no : Prog σ ε α} (first : Keeps R yes)
    (second : Keeps R no) : Keeps R (if c then yes else no) := by
  split
  · exact first
  · exact second

theorem onlyIf_keeps [Std.Refl R] {c : Prop} [Decidable c] {program : Prog σ ε Unit}
    (kept : Keeps R program) : Keeps R (onlyIf c program) :=
  ite_keeps kept (pure_keeps ())

theorem onPart_keeps {read : σ → τ} {write : τ → σ → σ} {program : Prog τ ε α}
    (related : ∀ s part, R s (write part s)) : Keeps R (onPart read write program) := by
  refine ⟨fun s a after returned => ?_⟩
  obtain ⟨part, -, rfl⟩ := returns_onPart.mp returned
  exact related s part

end Keeps

/-- Run `body` for `count` numbers from `start` on. -/
def forRange (body : Nat → Prog σ ε Unit) : Nat → Nat → Prog σ ε Unit
  | 0, _ => pure ()
  | count + 1, start => do
    body start
    forRange body count (start + 1)

theorem Keeps.forRange_keeps [Std.Refl R] [IsTrans σ R] {body : Nat → Prog σ ε Unit}
    (kept : ∀ i, Keeps R (body i)) (count start : Nat) : Keeps R (forRange body count start) := by
  induction count generalizing start with
  | zero => exact pure_keeps ()
  | succ count inductionHypothesis =>
    exact bind_keeps (kept start) fun _ => inductionHypothesis (start + 1)

end Hoare
