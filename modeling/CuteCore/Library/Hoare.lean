import Mathlib

/-!
# Weakest preconditions for programs with state and faults

A program takes a state and either returns a value with a new state or stops
with a fault. `wp` is total: it excludes faults, so a specification stated with
it also says that no fault occurs. `Returns` names one successful run and is
used where only what happens on return matters.
-/

namespace Hoare

variable {σ τ ε α β : Type}

abbrev Prog (σ ε α : Type) := StateT σ (Except ε) α

/-- This run returns `a` in state `after`. -/
def Returns (program : Prog σ ε α) (before : σ) (a : α) (after : σ) : Prop :=
  program before = .ok (a, after)

/-- The program returns, and its value and final state satisfy `post`. -/
def wp (program : Prog σ ε α) (post : α → σ → Prop) (before : σ) : Prop :=
  ∃ a after, Returns program before a after ∧ post a after

theorem wp_mono {program : Prog σ ε α} {post weaker : α → σ → Prop} {s : σ}
    (holds : wp program post s) (implied : ∀ a after, post a after → weaker a after) :
    wp program weaker s := by
  obtain ⟨a, after, returned, met⟩ := holds
  exact ⟨a, after, returned, implied a after met⟩

/-- A program is a function of its state, so its run is unique. -/
theorem Returns.unique {program : Prog σ ε α} {s after other : σ} {a b : α}
    (first : Returns program s a after) (second : Returns program s b other) :
    a = b ∧ after = other := by
  have same : (a, after) = (b, other) := Except.ok.inj (first.symm.trans second)
  exact Prod.mk.inj same

theorem wp.of_returns {program : Prog σ ε α} {post : α → σ → Prop} {s after : σ} {a : α}
    (holds : wp program post s) (returned : Returns program s a after) : post a after := by
  obtain ⟨b, other, run, met⟩ := holds
  obtain ⟨rfl, rfl⟩ := returned.unique run
  exact met

/-- A run that is known decides every specification. -/
theorem Returns.wp_iff {program : Prog σ ε α} {post : α → σ → Prop} {s after : σ} {a : α}
    (returned : Returns program s a after) : wp program post s ↔ post a after :=
  ⟨fun holds => holds.of_returns returned, fun met => ⟨a, after, returned, met⟩⟩

@[simp] theorem returns_pure {s after : σ} {a b : α} :
    Returns (pure a : Prog σ ε α) s b after ↔ a = b ∧ s = after := by
  simp [Returns, pure, StateT.pure, Except.pure]

@[simp] theorem returns_throw {s after : σ} {a : α} {e : ε} :
    Returns (throw e : Prog σ ε α) s a after ↔ False := by
  simp [Returns, throw, throwThe, MonadExceptOf.throw, StateT.lift, Except.bind, bind]

/-- Behind a program that returned, the outcome is that of the rest. -/
theorem Returns.bind {program : Prog σ ε α} {s mid : σ} {a : α} (returned : Returns program s a mid)
    (rest : α → Prog σ ε β) : (program >>= rest) s = rest a mid := by
  change StateT.bind program rest s = rest a mid
  rw [StateT.bind, returned]
  rfl

/-- A sequence returns exactly when its parts return one after the other. -/
theorem returns_bind {program : Prog σ ε α} {rest : α → Prog σ ε β} {s after : σ} {b : β} :
    Returns (program >>= rest) s b after ↔
      ∃ a mid, Returns program s a mid ∧ Returns (rest a) mid b after := by
  simp only [Returns, bind, StateT.bind]
  cases ran : program s with
  | error e => simp [Except.bind]
  | ok result =>
    obtain ⟨value, mid⟩ := result
    simp [Except.bind]

@[simp] theorem wp_pure {a : α} {post : α → σ → Prop} {s : σ} :
    wp (pure a : Prog σ ε α) post s ↔ post a s := by
  simp [wp]

@[simp] theorem wp_throw {e : ε} {post : α → σ → Prop} {s : σ} :
    wp (throw e : Prog σ ε α) post s ↔ False := by
  simp [wp]

theorem wp_bind {program : Prog σ ε α} {rest : α → Prog σ ε β} {post : β → σ → Prop} {s : σ} :
    wp (program >>= rest) post s ↔ wp program (fun a mid => wp (rest a) post mid) s := by
  constructor
  · rintro ⟨b, after, returned, met⟩
    obtain ⟨a, mid, first, second⟩ := returns_bind.mp returned
    exact ⟨a, mid, first, b, after, second, met⟩
  · rintro ⟨a, mid, first, b, after, second, met⟩
    exact ⟨b, after, returns_bind.mpr ⟨a, mid, first, second⟩, met⟩

/-- Prove a sequence from a specification of its first part. -/
theorem wp_seq {program : Prog σ ε α} {rest : α → Prog σ ε β} {spec : α → σ → Prop}
    {post : β → σ → Prop} {s : σ} (first : wp program spec s)
    (second : ∀ a mid, spec a mid → wp (rest a) post mid) : wp (program >>= rest) post s :=
  wp_bind.mpr (wp_mono first second)

@[simp] theorem returns_get {s after : σ} {a : σ} :
    Returns (get : Prog σ ε σ) s a after ↔ s = a ∧ s = after := by
  simp [Returns, get, getThe, MonadStateOf.get, StateT.get, pure, Except.pure]

@[simp] theorem returns_set {s after value : σ} {u : PUnit} :
    Returns (set value : Prog σ ε PUnit) s u after ↔ value = after := by
  simp [Returns, set, MonadStateOf.set, StateT.set, pure, Except.pure]

@[simp] theorem returns_modify {f : σ → σ} {s after : σ} {u : PUnit} :
    Returns (modify f : Prog σ ε PUnit) s u after ↔ f s = after := by
  simp [Returns, modify, modifyGet, MonadStateOf.modifyGet, StateT.modifyGet, pure, Except.pure]

@[simp] theorem wp_get {post : σ → σ → Prop} {s : σ} :
    wp (get : Prog σ ε σ) post s ↔ post s s := by
  simp [wp]

@[simp] theorem wp_set {value : σ} {post : PUnit → σ → Prop} {s : σ} :
    wp (set value : Prog σ ε PUnit) post s ↔ post ⟨⟩ value := by
  constructor
  · rintro ⟨⟨⟩, after, returned, met⟩
    exact returns_set.mp returned ▸ met
  · intro met
    exact ⟨⟨⟩, value, returns_set.mpr rfl, met⟩

@[simp] theorem wp_modify {f : σ → σ} {post : PUnit → σ → Prop} {s : σ} :
    wp (modify f : Prog σ ε PUnit) post s ↔ post ⟨⟩ (f s) := by
  constructor
  · rintro ⟨⟨⟩, after, returned, met⟩
    exact returns_modify.mp returned ▸ met
  · intro met
    exact ⟨⟨⟩, f s, returns_modify.mpr rfl, met⟩

theorem wp_ite {c : Prop} [Decidable c] {yes no : Prog σ ε α} {post : α → σ → Prop} {s : σ} :
    wp (if c then yes else no) post s ↔ if c then wp yes post s else wp no post s := by
  split <;> rfl

/-- Run the program only under the condition. -/
def onlyIf (c : Prop) [Decidable c] (program : Prog σ ε Unit) : Prog σ ε Unit :=
  if c then program else pure ()

theorem wp_onlyIf {c : Prop} [Decidable c] {program : Prog σ ε Unit} {post : Unit → σ → Prop}
    {s : σ} : wp (onlyIf c program) post s ↔ if c then wp program post s else post () s := by
  unfold onlyIf
  split
  · rfl
  · exact wp_pure

/-- A program over one component of a larger state. The two functions read the
component and put it back. -/
def onPart (read : τ → σ) (write : σ → τ → τ) (program : Prog σ ε α) : Prog τ ε α :=
  fun whole =>
    match program (read whole) with
    | .ok (a, part) => .ok (a, write part whole)
    | .error e => .error e

theorem returns_onPart {read : τ → σ} {write : σ → τ → τ} {program : Prog σ ε α} {s after : τ}
    {a : α} : Returns (onPart read write program) s a after ↔
      ∃ part, Returns program (read s) a part ∧ write part s = after := by
  simp only [Returns, onPart]
  cases ran : program (read s) with
  | error e => simp
  | ok result =>
    obtain ⟨value, part⟩ := result
    simp [Prod.ext_iff]

theorem wp_onPart {read : τ → σ} {write : σ → τ → τ} {program : Prog σ ε α}
    {post : α → τ → Prop} {s : τ} : wp (onPart read write program) post s ↔
      wp program (fun a part => post a (write part s)) (read s) := by
  simp only [wp, returns_onPart]
  constructor
  · rintro ⟨a, after, ⟨part, returned, rfl⟩, met⟩
    exact ⟨a, part, returned, met⟩
  · rintro ⟨a, part, returned, met⟩
    exact ⟨a, write part s, ⟨part, returned, rfl⟩, met⟩

/-- The program stops with this fault exactly under the condition, and otherwise returns
with `post`. -/
def StopsIf (program : Prog σ ε α) (stops : Prop) (e : ε) (post : α → σ → Prop) (s : σ) : Prop :=
  (stops → program s = .error e) ∧ (¬ stops → wp program post s)

theorem StopsIf.of_wp {program : Prog σ ε α} {post : α → σ → Prop} {e : ε} {s : σ}
    (holds : wp program post s) : StopsIf program False e post s :=
  ⟨False.elim, fun _ => holds⟩

theorem StopsIf.throw {e : ε} {stops : Prop} {post : α → σ → Prop} {s : σ} (stopped : stops) :
    StopsIf (throw e : Prog σ ε α) stops e post s :=
  ⟨fun _ => rfl, fun goesOn => absurd stopped goesOn⟩

/-- A sequence stops in its first part or in its second. -/
theorem StopsIf.seq {program : Prog σ ε α} {rest : α → Prog σ ε β} {first second : Prop} {e : ε}
    {spec : α → σ → Prop} {post : β → σ → Prop} {s : σ} (begins : StopsIf program first e spec s)
    (goesOn : ∀ a mid, spec a mid → StopsIf (rest a) second e post mid) :
    StopsIf (program >>= rest) (first ∨ second) e post s := by
  constructor
  · intro stops
    change Except.bind (program s) (fun result => rest result.1 result.2) = .error e
    by_cases early : first
    · rw [begins.1 early]
      rfl
    · obtain ⟨a, mid, returned, met⟩ := begins.2 early
      rw [show program s = .ok (a, mid) from returned]
      exact (goesOn a mid met).1 (stops.resolve_left early)
  · intro neither
    apply wp_seq (begins.2 fun early => neither (Or.inl early))
    intro a mid met
    exact (goesOn a mid met).2 fun late => neither (Or.inr late)

theorem StopsIf.mono {program : Prog σ ε α} {stops : Prop} {e : ε} {post weaker : α → σ → Prop}
    {s : σ} (holds : StopsIf program stops e post s)
    (implied : ∀ a after, post a after → weaker a after) : StopsIf program stops e weaker s :=
  ⟨holds.1, fun goesOn => wp_mono (holds.2 goesOn) implied⟩

theorem StopsIf.congr {program : Prog σ ε α} {stops other : Prop} {e : ε} {post : α → σ → Prop}
    {s : σ} (same : other ↔ stops) (holds : StopsIf program stops e post s) :
    StopsIf program other e post s :=
  ⟨fun stopped => holds.1 (same.mp stopped), fun goesOn => holds.2 fun stopped =>
    goesOn (same.mpr stopped)⟩

end Hoare
