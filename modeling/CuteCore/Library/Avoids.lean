import CuteCore.Library.Frames

/-!
# Programs that avoid some faults

`avoids` stands between total and partial correctness: a program may stop, but not
with one of the bad faults.
-/

namespace Hoare

variable {σ τ ε α β : Type} {bad : ε → Prop}

/-- The program returns what `post` says, or stops with a fault that is not bad. -/
def avoids (bad : ε → Prop) (program : Prog σ ε α) (post : α → σ → Prop) (s : σ) : Prop :=
  match program s with
  | .ok (a, after) => post a after
  | .error e => ¬ bad e

theorem avoids.of_returns {program : Prog σ ε α} {post : α → σ → Prop} {s after : σ} {a : α}
    (holds : avoids bad program post s) (returned : Returns program s a after) : post a after := by
  rw [avoids, returned] at holds
  exact holds

/-- No run stops with a bad fault. -/
theorem avoids.not_bad {program : Prog σ ε α} {post : α → σ → Prop} {s : σ} {e : ε}
    (holds : avoids bad program post s) (stopped : program s = .error e) : ¬ bad e := by
  rw [avoids, stopped] at holds
  exact holds

theorem avoids_of_wp {program : Prog σ ε α} {post : α → σ → Prop} {s : σ}
    (returns : wp program post s) : avoids bad program post s := by
  obtain ⟨a, after, returned, met⟩ := returns
  rw [avoids, returned]
  exact met

/-- A weaker postcondition holds, too. -/
theorem avoids_mono {program : Prog σ ε α} {post weaker : α → σ → Prop} {s : σ}
    (holds : avoids bad program post s) (implied : ∀ a after, post a after → weaker a after) :
    avoids bad program weaker s := by
  unfold avoids at *
  split
  · rename_i a after ran
    rw [ran] at holds
    exact implied a after holds
  · rename_i e ran
    rw [ran] at holds
    exact holds

theorem avoids_pure {a : α} {post : α → σ → Prop} {s : σ} :
    avoids bad (pure a : Prog σ ε α) post s ↔ post a s := Iff.rfl

theorem avoids_throw {e : ε} {post : α → σ → Prop} {s : σ} :
    avoids bad (throw e : Prog σ ε α) post s ↔ ¬ bad e := Iff.rfl

theorem avoids_get {post : σ → σ → Prop} {s : σ} :
    avoids bad (get : Prog σ ε σ) post s ↔ post s s := Iff.rfl

theorem avoids_set {value : σ} {post : PUnit → σ → Prop} {s : σ} :
    avoids bad (set value : Prog σ ε PUnit) post s ↔ post ⟨⟩ value := Iff.rfl

theorem avoids_modify {f : σ → σ} {post : PUnit → σ → Prop} {s : σ} :
    avoids bad (modify f : Prog σ ε PUnit) post s ↔ post ⟨⟩ (f s) := Iff.rfl

theorem avoids_bind {program : Prog σ ε α} {rest : α → Prog σ ε β} {post : β → σ → Prop} {s : σ} :
    avoids bad (program >>= rest) post s ↔
      avoids bad program (fun a mid => avoids bad (rest a) post mid) s := by
  simp only [avoids, bind, StateT.bind]
  cases ran : program s with
  | error e => rfl
  | ok result => rfl

theorem avoids_seq {program : Prog σ ε α} {rest : α → Prog σ ε β} {spec : α → σ → Prop}
    {post : β → σ → Prop} {s : σ} (first : avoids bad program spec s)
    (second : ∀ a mid, spec a mid → avoids bad (rest a) post mid) :
    avoids bad (program >>= rest) post s :=
  avoids_bind.mpr (avoids_mono first second)

end Hoare
