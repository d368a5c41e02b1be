import CuteCore.Fs.Blocks
import CuteCore.Library.Avoids

/-!
# Buffers are given back

A balanced program returns every buffer it reads, on every path, and records every
change before it does. Programs are put together from brackets: `bread`, what is done
with the buffer, and `brelse`.

A program is described by what it holds while it runs and by what it has recorded when it
returns. The rules are those of sequencing and of a bracket, so a proof about a function
follows its text and never looks at the slots of the cache. Faults are left out: a program
that stops gives nothing back.
-/

namespace CuteCore.Fs

open Hoare Bytes BlkCache

/-- The panics of the block cache. -/
def CachePanic (e : Fault) : Prop := e = .panic "no free block cache" ∨ e = .panic "brelse"

theorem badAccess_allowed : ¬ CachePanic .badAccess := by simp [CachePanic]

/-- The cache stands for some blocks. -/
def Buffered (loose : Nat → Nat → Prop) (s : Vfs) (pending : Nat → Prop) (held : Multiset Nat) : Prop :=
  ∃ view, Io loose s view pending held

section Rules

variable {loose : Nat → Nat → Prop} {s : Vfs} {pending : Nat → Prop} {held : Multiset Nat}

/-- More changes may wait for their record than do. -/
theorem Buffered.weaken {more : Nat → Prop} (buffered : Buffered loose s pending held)
    (sub : ∀ m, pending m → more m) (inHeld : ∀ m, more m → m ∈ held) :
    Buffered loose s more held := by
  obtain ⟨view, io⟩ := buffered
  have rep := io.rep
  exact ⟨view, ⟨rep.distinct, rep.counted, rep.cached, rep.data,
    fun i valid clean settled => rep.clean i valid clean fun mark => settled (sub _ mark),
    rep.absent, inHeld⟩, io.super, io.superHeld⟩

/-- Changes outside the cache. -/
theorem Buffered.congr {after : Vfs} (buffered : Buffered loose s pending held)
    (caches : after.caches = s.caches) (super : after.sbBuf = s.sbBuf) :
    Buffered loose after pending held := by
  obtain ⟨view, io⟩ := buffered
  refine ⟨view, by rw [caches]; exact io.rep, ?_, io.superHeld⟩
  rw [caches, super]
  exact io.super

/-- Where contents do not matter, no change waits. -/
theorem Buffered.forget {fewer : Nat → Prop} (buffered : Buffered loose s pending held)
    (all : ∀ m x, loose m x) (inHeld : ∀ m, fewer m → m ∈ held) : Buffered loose s fewer held := by
  obtain ⟨view, io⟩ := buffered
  have rep := io.rep
  exact ⟨view, ⟨rep.distinct, rep.counted, rep.cached, rep.data,
    fun i _ _ _ x counts => absurd (all _ x) counts, rep.absent, inHeld⟩, io.super, io.superHeld⟩

/-- `bwrite` records the change of one block. -/
theorem Buffered.bwrite_spec (buffered : Buffered loose s pending held) {i : Fin nBlkNum} {no : Nat}
    (buffers : s.caches.Buffers i no) :
    wp (Fs.bwrite i) (fun _ after => Buffered loose after (fun m => m ≠ no ∧ pending m) held ∧
      ∀ j m, s.caches.Buffers j m → after.caches.Buffers j m) s := by
  obtain ⟨view, io⟩ := buffered
  refine Io.onCaches_spec (wp_mono (BlkCache.bwrite_spec io.rep i no buffers) ?_)
  rintro - caches ⟨still, rep, -, others⟩
  have kept := buffers_kept buffers still others
  exact ⟨⟨view, rep, kept _ _ io.super, io.superHeld⟩, kept⟩

/-- `brelse` gives the buffer of a recorded block back. -/
theorem Buffered.brelse_spec {i : Fin nBlkNum} {no : Nat}
    (buffered : Buffered loose s (fun m => False ∧ m = no ∨ pending m) (no ::ₘ held))
    (inHeld : ∀ m, pending m → m ∈ held) (superHeld : 0 ∈ held) (buffers : s.caches.Buffers i no) :
    wp (Fs.brelse i) (fun _ after => Buffered loose after pending held ∧
      ∀ j m, s.caches.Buffers j m → after.caches.Buffers j m) s := by
  obtain ⟨view, io⟩ := buffered
  have recorded : (False ∧ no = no ∨ pending no) → no ∈ (no ::ₘ held).erase no := by
    rintro (⟨false, -⟩ | mark)
    · exact false.elim
    · rw [Multiset.erase_cons_head]
      exact inHeld no mark
  refine Io.onCaches_spec (wp_mono (BlkCache.brelse_spec io.rep i no buffers
    (Multiset.mem_cons_self ..) recorded) ?_)
  rintro - caches ⟨still, rep, -, others⟩
  have kept := buffers_kept buffers still others
  rw [Multiset.erase_cons_head] at rep
  have released : Buffered loose { s with caches := caches } (fun m => False ∧ m = no ∨ pending m) held :=
    ⟨view, rep, kept _ _ io.super, superHeld⟩
  refine ⟨released.weaken ?_ inHeld, kept⟩
  rintro m (⟨false, -⟩ | mark)
  · exact false.elim
  · exact mark

/-- The program gives back what it reads, with `room` slots beside the ones held. -/
structure GivesBack (loose : Nat → Nat → Prop) (room : Nat) {α : Type} (program : FsProg α) :
    Prop where
  run : ∀ s pending held, Buffered loose s pending held → Multiset.card held + room ≤ nBlkNum →
    avoids CachePanic program (fun _ after => Buffered loose after pending held ∧
      KeepsBuffers s after held) s

/-- The rest of a bracket: it starts with buffer `i` of block `no` in hand, changed or not,
and ends without. -/
structure Bracket (loose : Nat → Nat → Prop) (room no : Nat) (i : Fin nBlkNum) (changed : Prop)
    {α : Type} (program : FsProg α) : Prop where
  run : ∀ s pending held, Buffered loose s (fun m => changed ∧ m = no ∨ pending m) (no ::ₘ held) →
    (∀ m, pending m → m ∈ held) → 0 ∈ held → s.caches.Buffers i no →
    Multiset.card held + 1 + room ≤ nBlkNum →
    avoids CachePanic program (fun _ after => Buffered loose after pending held ∧
      KeepsBuffers s after held) s

end Rules

theorem KeepsBuffers.refl (s : Vfs) (held : Multiset Nat) : KeepsBuffers s s held :=
  fun _ _ _ before => before

theorem KeepsBuffers.of_all {s after : Vfs} (held : Multiset Nat)
    (all : ∀ j m, s.caches.Buffers j m → after.caches.Buffers j m) : KeepsBuffers s after held :=
  fun j m _ before => all j m before

namespace GivesBack

variable {loose : Nat → Nat → Prop} {room : Nat} {α β : Type}

theorem mono {program : FsProg α} {more : Nat} (givesBack : GivesBack loose room program)
    (le : room ≤ more) : GivesBack loose more program :=
  ⟨fun s pending held buffered fits => givesBack.run s pending held buffered (by omega)⟩

theorem pure (a : α) : GivesBack loose room (pure a : FsProg α) :=
  ⟨fun s _ held buffered _ => avoids_pure.mpr ⟨buffered, KeepsBuffers.refl s held⟩⟩

theorem throw {e : Fault} (allowed : ¬ CachePanic e) : GivesBack loose room (throw e : FsProg α) :=
  ⟨fun _ _ _ _ _ => avoids_throw.mpr allowed⟩

theorem get : GivesBack loose room (get : FsProg Vfs) :=
  ⟨fun s _ held buffered _ => avoids_get.mpr ⟨buffered, KeepsBuffers.refl s held⟩⟩

theorem modify {f : Vfs → Vfs} (caches : ∀ s, (f s).caches = s.caches)
    (super : ∀ s, (f s).sbBuf = s.sbBuf) : GivesBack loose room (modify f : FsProg PUnit) := by
  refine ⟨fun s pending held buffered _ => avoids_modify.mpr
    ⟨buffered.congr (caches s) (super s), fun j m _ before => ?_⟩⟩
  rw [caches]
  exact before

theorem bind {program : FsProg α} {rest : α → FsProg β} (first : GivesBack loose room program)
    (second : ∀ a, GivesBack loose room (rest a)) : GivesBack loose room (program >>= rest) := by
  refine ⟨fun s pending held buffered fits => ?_⟩
  apply avoids_seq (first.run s pending held buffered fits)
  rintro a mid ⟨midBuffered, kept⟩
  apply avoids_mono ((second a).run mid pending held midBuffered fits)
  rintro b after ⟨afterBuffered, kept'⟩
  exact ⟨afterBuffered, kept.trans kept' (le_refl _)⟩

theorem ite {c : Prop} [Decidable c] {yes no : FsProg α} (first : c → GivesBack loose room yes)
    (second : ¬ c → GivesBack loose room no) : GivesBack loose room (if c then yes else no) := by
  split
  · exact first ‹_›
  · exact second ‹_›

theorem onlyIf {c : Prop} [Decidable c] {program : FsProg Unit}
    (givesBack : GivesBack loose room program) : GivesBack loose room (onlyIf c program) :=
  ite (fun _ => givesBack) fun _ => pure ()

theorem forRange {body : Nat → FsProg Unit} (givesBack : ∀ i, GivesBack loose room (body i))
    (count start : Nat) : GivesBack loose room (forRange body count start) := by
  induction count generalizing start with
  | zero => exact pure ()
  | succ count inductionHypothesis =>
    exact bind (givesBack start) fun _ => inductionHypothesis (start + 1)

/-- A bracket around a buffer. -/
theorem bread {no : Nat} {rest : Fin nBlkNum → FsProg α}
    (bracket : ∀ i, Bracket loose room no i False (rest i)) :
    GivesBack loose (room + 1) (Fs.bread no >>= rest) := by
  constructor
  rintro s pending held ⟨view, io⟩ fits
  refine avoids_seq (avoids_of_wp (io.bread_spec no (by omega))) ?_
  rintro i mid ⟨midIo, -, buffers, kept⟩
  have unchanged : Io loose mid view (fun m => False ∧ m = no ∨ pending m) (no ::ₘ held) :=
    midIo.pending_congr fun m => by simp
  refine avoids_mono ((bracket i).run mid pending held ⟨view, unchanged⟩ io.rep.pendingHeld io.superHeld
    buffers (by omega)) ?_
  rintro a after ⟨buffered, kept'⟩
  exact ⟨buffered, kept.trans kept' (le_refl _)⟩

theorem bufData (i : Fin nBlkNum) : GivesBack loose room (Fs.bufData i) :=
  bind get fun _ => pure _

theorem loadBuf (i : Fin nBlkNum) (off n : Nat) : GivesBack loose room (Fs.loadBuf i off n) :=
  ite (fun _ => bind (bufData i) fun _ => pure _) fun _ => throw badAccess_allowed

theorem loadSuper (off n : Nat) : GivesBack loose room (Fs.loadSuper off n) :=
  bind get fun _ => loadBuf ..

theorem derefInode (p : Nat) : GivesBack loose room (Fs.derefInode p) := by
  refine bind get fun s => ?_
  split
  · exact pure _
  · exact throw badAccess_allowed

theorem updateInode (p : Nat) (f : Inode → Inode) : GivesBack loose room (Fs.updateInode p f) :=
  bind (derefInode p) fun _ => modify (fun _ => rfl) fun _ => rfl

theorem addRef (p : Nat) : GivesBack loose room (Fs.addRef p) :=
  bind (derefInode p) fun _ => ite (fun _ => modify (fun _ => rfl) fun _ => rfl) fun _ =>
    throw badAccess_allowed

/-- Fields outside the cache are read and set. -/
theorem update {f : Vfs → Vfs} {rest : Vfs → FsProg α}
    (caches : ∀ s, (f s).caches = s.caches) (super : ∀ s, (f s).sbBuf = s.sbBuf)
    (givesBack : ∀ s, GivesBack loose room (rest s)) :
    GivesBack loose room (do
      let s ← MonadState.get
      (MonadState.set (f s) : FsProg PUnit)
      rest s) := by
  refine ⟨fun s pending held buffered fits => ?_⟩
  refine avoids_bind.mpr (avoids_get.mpr (avoids_bind.mpr (avoids_set.mpr ?_)))
  apply avoids_mono ((givesBack s).run (f s) pending held (buffered.congr (caches s) (super s)) fits)
  rintro a after ⟨afterBuffered, kept⟩
  refine ⟨afterBuffered, fun j m member before => kept j m member ?_⟩
  rw [caches]
  exact before

theorem kmallocServed : GivesBack loose room Fs.kmallocServed :=
  update (f := fun s => { s with requests := s.requests + 1 }) (fun _ => rfl) (fun _ => rfl)
    fun _ => pure _

end GivesBack

namespace Bracket

variable {loose : Nat → Nat → Prop} {room no : Nat} {i : Fin nBlkNum} {changed : Prop} {α β : Type}

/-- A balanced step inside. -/
theorem step {program : FsProg β} {rest : β → FsProg α} (givesBack : GivesBack loose room program)
    (bracket : ∀ b, Bracket loose room no i changed (rest b)) :
    Bracket loose room no i changed (program >>= rest) := by
  refine ⟨fun s pending held buffered inHeld superHeld buffers fits => ?_⟩
  apply avoids_seq (givesBack.run s _ _ buffered (by rw [Multiset.card_cons]; exact fits))
  rintro b mid ⟨midBuffered, kept⟩
  refine avoids_mono ((bracket b).run mid pending held midBuffered inHeld superHeld
    (kept i no (Multiset.mem_cons_self ..) buffers) fits) ?_
  rintro a after ⟨afterBuffered, kept'⟩
  exact ⟨afterBuffered, fun j m member before =>
    kept' j m member (kept j m (Multiset.mem_cons_of_mem member) before)⟩

theorem ite {c : Prop} [Decidable c] {yes other : FsProg α}
    (first : c → Bracket loose room no i changed yes)
    (second : ¬ c → Bracket loose room no i changed other) :
    Bracket loose room no i changed (if c then yes else other) := by
  split
  · exact first ‹_›
  · exact second ‹_›

/-- A change of the buffer in hand. -/
theorem modifyData {f : ByteMap → ByteMap} {rest : Unit → FsProg α}
    (bracket : Bracket loose room no i True (rest ())) :
    Bracket loose room no i changed (onCaches (BlkCache.modifyData i f) >>= rest) := by
  constructor
  rintro s pending held ⟨view, io⟩ inHeld superHeld buffers fits
  refine avoids_seq (avoids_of_wp (io.modifyData_spec buffers (Multiset.mem_cons_self ..) f
    (f (s.caches.slot i).data) fun _ _ => rfl)) ?_
  rintro ⟨⟩ mid ⟨midIo, -, kept⟩
  have marked : Buffered loose mid (fun m => True ∧ m = no ∨ pending m) (no ::ₘ held) := by
    refine Buffered.weaken ⟨_, midIo⟩ ?_ ?_
    · rintro m (isNo | ⟨-, isNo⟩ | mark)
      · exact Or.inl ⟨trivial, isNo⟩
      · exact Or.inl ⟨trivial, isNo⟩
      · exact Or.inr mark
    · rintro m (⟨-, rfl⟩ | mark)
      · exact Multiset.mem_cons_self ..
      · exact Multiset.mem_cons_of_mem (inHeld m mark)
  apply avoids_mono (bracket.run mid pending held marked inHeld superHeld (kept i no buffers) fits)
  rintro a after ⟨afterBuffered, kept'⟩
  exact ⟨afterBuffered, (KeepsBuffers.of_all held kept).trans kept' (le_refl _)⟩

theorem copyBuf {off n : Nat} {source : Nat → Byte} {rest : Unit → FsProg α}
    (bracket : Bracket loose room no i True (rest ())) :
    Bracket loose room no i changed (Fs.copyBuf i off n source >>= rest) := by
  unfold Fs.copyBuf
  split
  · exact modifyData bracket
  · refine ⟨fun s pending held buffered inHeld superHeld buffers fits => ?_⟩
    exact avoids_bind.mpr (avoids_throw.mpr badAccess_allowed)

theorem storeBuf {off n value : Nat} {rest : Unit → FsProg α}
    (bracket : Bracket loose room no i True (rest ())) :
    Bracket loose room no i changed (Fs.storeBuf i off n value >>= rest) := copyBuf bracket

theorem clearBuf {off n : Nat} {rest : Unit → FsProg α}
    (bracket : Bracket loose room no i True (rest ())) :
    Bracket loose room no i changed (Fs.clearBuf i off n >>= rest) := copyBuf bracket

/-- A bracket that starts with a change may start without one. -/
theorem of_changed {program : FsProg α} (bracket : Bracket loose room no i True program) :
    Bracket loose room no i changed program := by
  refine ⟨fun s pending held buffered inHeld superHeld buffers fits => ?_⟩
  refine bracket.run s pending held (buffered.weaken ?_ ?_) inHeld superHeld buffers fits
  · rintro m (⟨-, isNo⟩ | mark)
    · exact Or.inl ⟨trivial, isNo⟩
    · exact Or.inr mark
  · rintro m (⟨-, rfl⟩ | mark)
    · exact Multiset.mem_cons_self ..
    · exact Multiset.mem_cons_of_mem (inHeld m mark)

/-- The change is recorded. -/
theorem bwrite {rest : Unit → FsProg α} (bracket : Bracket loose room no i False (rest ())) :
    Bracket loose room no i changed (Fs.bwrite i >>= rest) := by
  refine ⟨fun s pending held buffered inHeld superHeld buffers fits => ?_⟩
  apply avoids_seq (avoids_of_wp (buffered.bwrite_spec buffers))
  rintro ⟨⟩ mid ⟨midBuffered, kept⟩
  have settled : Buffered loose mid (fun m => False ∧ m = no ∨ pending m) (no ::ₘ held) := by
    refine midBuffered.weaken ?_ ?_
    · rintro m ⟨differs, ⟨-, isNo⟩ | mark⟩
      · exact absurd isNo differs
      · exact Or.inr mark
    · rintro m (⟨false, -⟩ | mark)
      · exact false.elim
      · exact Multiset.mem_cons_of_mem (inHeld m mark)
  apply avoids_mono (bracket.run mid pending held settled inHeld superHeld (kept i no buffers) fits)
  rintro a after ⟨afterBuffered, kept'⟩
  exact ⟨afterBuffered, (KeepsBuffers.of_all held kept).trans kept' (le_refl _)⟩

/-- The buffer is given back, and balanced steps follow. -/
theorem release {rest : Unit → FsProg α} (givesBack : GivesBack loose (room + 1) (rest ())) :
    Bracket loose room no i False (Fs.brelse i >>= rest) := by
  refine ⟨fun s pending held buffered inHeld superHeld buffers fits => ?_⟩
  apply avoids_seq (avoids_of_wp (buffered.brelse_spec inHeld superHeld buffers))
  rintro ⟨⟩ mid ⟨midBuffered, kept⟩
  apply avoids_mono (givesBack.run mid pending held midBuffered (by omega))
  rintro a after ⟨afterBuffered, kept'⟩
  exact ⟨afterBuffered, (KeepsBuffers.of_all held kept).trans kept' (le_refl _)⟩

theorem brelse : Bracket loose room no i False (Fs.brelse i) := by
  refine ⟨fun s pending held buffered inHeld superHeld buffers fits => ?_⟩
  refine avoids_of_wp (wp_mono (buffered.brelse_spec inHeld superHeld buffers) ?_)
  rintro ⟨⟩ after ⟨afterBuffered, kept⟩
  exact ⟨afterBuffered, KeepsBuffers.of_all held kept⟩

/-- Where contents do not matter, a changed buffer may be given back as it is. -/
theorem drop (all : ∀ m x, loose m x) {program : FsProg α}
    (bracket : Bracket loose room no i False program) :
    Bracket loose room no i changed program := by
  refine ⟨fun s pending held buffered inHeld superHeld buffers fits => ?_⟩
  refine bracket.run s pending held (buffered.forget all ?_) inHeld superHeld buffers fits
  rintro m (⟨false, -⟩ | mark)
  · exact false.elim
  · exact Multiset.mem_cons_of_mem (inHeld m mark)

/-- Stores of fields one after the other. -/
theorem storeFields {off : Nat} {rest : Unit → FsProg α} (fields : List (Nat × Nat × Nat))
    (bracket : Bracket loose room no i True (rest ())) :
    Bracket loose room no i changed (Fs.storeFields i off fields >>= rest) := by
  induction fields generalizing changed with
  | nil => exact of_changed bracket
  | cons field fields inductionHypothesis =>
    obtain ⟨place, width, value⟩ := field
    rw [Fs.storeFields, bind_assoc]
    exact storeBuf inductionHypothesis

end Bracket

end CuteCore.Fs
