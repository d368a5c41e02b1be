import CuteCore.Fs.Dir

/-!
# Blocks behind the cache

The file system reads and writes buffers, and the cache stands for a map from
block numbers to contents. Some bytes of that map may be left open: the slot of a
free inode can hold a change that was never recorded. Each buffer operation gets
a specification in terms of the map.
-/

namespace CuteCore.Fs

open Hoare Bytes BlkCache

/-- Contents that agree on all bytes that count. -/
def Agree (loose : Nat → Nat → Prop) (no : Nat) (data stored : ByteMap) : Prop :=
  ∀ x, ¬ loose no x → data x = stored x

/-- The cache stands for the map `view`, and the superblock is held. -/
structure Io (loose : Nat → Nat → Prop) (s : Vfs) (view : Nat → ByteMap) (pending : Nat → Prop)
    (held : Multiset Nat) : Prop where
  rep : Represents (Agree loose) s.caches view pending held
  super : s.caches.Buffers s.sbBuf 0
  superHeld : 0 ∈ held

/-- A block as the cache shows it. -/
def Vfs.block (s : Vfs) (no : Nat) : ByteMap :=
  match s.caches.hit no with
  | some i => (s.caches.slot i).data
  | none => s.caches.disk no

/-- At most the cache differs. -/
def SameFs (s after : Vfs) : Prop := { s with caches := after.caches } = after

theorem SameFs.refl (s : Vfs) : SameFs s s := rfl

theorem SameFs.trans {s mid after : Vfs} (first : SameFs s mid) (second : SameFs mid after) :
    SameFs s after := by
  unfold SameFs at *
  rw [← first] at second
  exact second

/-- Buffers of held blocks stay where they are. -/
def KeepsBuffers (s after : Vfs) (held : Multiset Nat) : Prop :=
  ∀ j no, no ∈ held → s.caches.Buffers j no → after.caches.Buffers j no

theorem KeepsBuffers.trans {s mid after : Vfs} {held more : Multiset Nat}
    (first : KeepsBuffers s mid held) (second : KeepsBuffers mid after more) (sub : held ≤ more) :
    KeepsBuffers s after held :=
  fun j no member buffers =>
    second j no (Multiset.mem_of_le sub member) (first j no member buffers)

/-- When one slot changes and still buffers its block, all slots do. -/
theorem buffers_kept {before after : Caches ByteMap} {i : Fin nBlkNum} {no : Nat}
    (buffers : before.Buffers i no) (still : after.Buffers i no)
    (others : ∀ j, j ≠ i → after.slot j = before.slot j) (j : Fin nBlkNum) (m : Nat)
    (was : before.Buffers j m) : after.Buffers j m := by
  by_cases isI : j = i
  · subst isI
    have same : m = no := was.2.symm.trans buffers.2
    exact same ▸ still
  · exact ⟨by rw [others j isI]; exact was.1, by rw [others j isI]; exact was.2⟩

namespace Io

variable {loose : Nat → Nat → Prop} {s : Vfs} {view : Nat → ByteMap} {pending : Nat → Prop}
  {held : Multiset Nat}

/-- Which marks are pending, not how they are written, counts. -/
theorem pending_congr {pending' : Nat → Prop} (io : Io loose s view pending held)
    (same : ∀ no, pending' no ↔ pending no) : Io loose s view pending' held := by
  obtain rfl : pending' = pending := funext fun no => propext (same no)
  exact io

/-- The cache stands for every map that agrees with the one it stands for. -/
theorem agree_congr {view' : Nat → ByteMap} (io : Io loose s view pending held)
    (same : ∀ no, Agree loose no (view no) (view' no)) : Io loose s view' pending held := by
  have rep := io.rep
  refine ⟨⟨rep.distinct, rep.counted, rep.cached, fun i valid x counts => ?_,
    fun i valid clean settled x counts => ?_, fun no absent x counts => ?_, rep.pendingHeld⟩,
    io.super, io.superHeld⟩
  · exact (rep.data i valid x counts).trans (same _ x counts)
  · exact (rep.clean i valid clean settled x counts).trans (same _ x counts)
  · exact (rep.absent no absent x counts).trans (same no x counts)

/-- The blocks as the cache shows them are the map, on the bytes that count. -/
theorem block_agrees (io : Io loose s view pending held) (no : Nat) :
    Agree loose no (s.block no) (view no) := by
  rw [Vfs.block]
  cases hit : s.caches.hit no with
  | some i =>
    obtain ⟨valid, isNo⟩ := hit_some s.caches no i hit
    have data := io.rep.data i valid
    rwa [isNo] at data
  | none => exact io.rep.absent no (hit_none s.caches no hit)

theorem of_blocks (io : Io loose s view pending held) : Io loose s s.block pending held :=
  io.agree_congr fun no x counts => (io.block_agrees no x counts).symm

theorem onCaches_spec {α : Type} {program : CacheProg ByteMap α} {post : α → Vfs → Prop}
    (ran : wp program (fun a caches => post a { s with caches := caches }) s.caches) :
    wp (onCaches program) post s :=
  wp_onPart.mpr ran

/-- To read a block adds a reference to a buffer with its contents, and keeps the buffers that are
held. -/
theorem bread_spec (io : Io loose s view pending held) (no : Nat)
    (room : Multiset.card held < nBlkNum) :
    wp (Fs.bread no) (fun i after => Io loose after view pending (no ::ₘ held) ∧ SameFs s after ∧
      after.caches.Buffers i no ∧ KeepsBuffers s after held) s := by
  have few : held.toFinset.card < nBlkNum := Nat.lt_of_le_of_lt (Multiset.toFinset_card_le _) room
  refine onCaches_spec (wp_mono (BlkCache.bread_spec io.rep no (Or.inr few)
    (BlkCache.count_fits held room no)) ?_)
  rintro i caches ⟨buffers, rep, kept⟩
  have keeps : ∀ j m, m ∈ held → s.caches.Buffers j m → caches.Buffers j m := by
    intro j m member before
    have references := io.rep.refcnt_pos j m before member
    obtain ⟨valid, number, -⟩ := kept j (by omega)
    exact ⟨valid.trans before.1, number.trans before.2⟩
  exact ⟨⟨rep, keeps _ _ io.superHeld io.super, Multiset.mem_cons_of_mem io.superHeld⟩, rfl,
    buffers, keeps⟩

theorem bufData_spec (io : Io loose s view pending held) {i : Fin nBlkNum} {no : Nat}
    (buffers : s.caches.Buffers i no) :
    wp (bufData i) (fun data after => Agree loose no data (view no) ∧ after = s) s := by
  rw [bufData, wp_bind, wp_get, wp_pure]
  have data := io.rep.data i buffers.1
  rw [buffers.2] at data
  exact ⟨data, rfl⟩

theorem loadBuf_spec (io : Io loose s view pending held) {i : Fin nBlkNum} {no off n : Nat}
    (buffers : s.caches.Buffers i no) (fits : off + n ≤ blkSz)
    (tight : ∀ x, off ≤ x → x < off + n → ¬ loose no x) :
    wp (loadBuf i off n) (fun value after => value = load (view no) off n ∧ after = s) s := by
  rw [loadBuf, if_pos fits]
  apply wp_seq (io.bufData_spec buffers)
  rintro data _ ⟨agrees, rfl⟩
  rw [wp_pure]
  exact ⟨load_congr fun x low high => agrees x (tight x low high), rfl⟩

/-- A holder changes its buffer. The change is pending until it is recorded. -/
theorem modifyData_spec (io : Io loose s view pending held) {i : Fin nBlkNum} {no : Nat}
    (buffers : s.caches.Buffers i no) (member : no ∈ held) (f : ByteMap → ByteMap)
    (stored : ByteMap) (data : Agree loose no (f (s.caches.slot i).data) stored) :
    wp (onCaches (modifyData i f)) (fun _ after =>
      Io loose after (Function.update view no stored) (fun m => m = no ∨ pending m) held ∧
      SameFs s after ∧ ∀ j m, s.caches.Buffers j m → after.caches.Buffers j m) s := by
  refine onCaches_spec (wp_mono (BlkCache.modifyData_spec io.rep i no buffers member f
    (Agree loose) (Function.update view no stored) ?_ ?_) ?_)
  · intro m differs
    exact ⟨rfl, Function.update_of_ne differs _ _⟩
  · rw [Function.update_self]
    exact data
  · rintro - caches ⟨after, rep, -, others⟩
    have keeps := buffers_kept buffers after others
    exact ⟨⟨rep, keeps _ _ io.super, io.superHeld⟩, rfl, keeps⟩

/-- A change of a held buffer is a change of the block it stands for. -/
theorem copyBuf_spec (io : Io loose s view pending held) {i : Fin nBlkNum} {no off n : Nat}
    {source : Nat → Byte} (buffers : s.caches.Buffers i no) (member : no ∈ held)
    (fits : off + n ≤ blkSz) :
    wp (copyBuf i off n source) (fun _ after =>
      Io loose after (Function.update view no (copy (view no) off n source))
        (fun m => m = no ∨ pending m) held ∧
      SameFs s after ∧ ∀ j m, s.caches.Buffers j m → after.caches.Buffers j m) s := by
  rw [copyBuf, if_pos fits]
  apply io.modifyData_spec buffers member _ _
  intro x counts
  have data := io.rep.data i buffers.1
  rw [buffers.2] at data
  simp only [copy, data x counts]

theorem storeBuf_spec (io : Io loose s view pending held) {i : Fin nBlkNum} {no off n value : Nat}
    (buffers : s.caches.Buffers i no) (member : no ∈ held) (fits : off + n ≤ blkSz) :
    wp (storeBuf i off n value) (fun _ after =>
      Io loose after (Function.update view no (store (view no) off n value))
        (fun m => m = no ∨ pending m) held ∧
      SameFs s after ∧ ∀ j m, s.caches.Buffers j m → after.caches.Buffers j m) s :=
  io.copyBuf_spec buffers member fits

/-- To write a buffer back records its change: the block is no longer pending, and what it stands
for stays. -/
theorem bwrite_spec {no : Nat} (io : Io loose s view (fun m => m = no ∨ pending m) held)
    {i : Fin nBlkNum} (buffers : s.caches.Buffers i no) (settled : ¬ pending no) :
    wp (Fs.bwrite i) (fun _ after => Io loose after view pending held ∧ SameFs s after ∧
      ∀ j m, s.caches.Buffers j m → after.caches.Buffers j m) s := by
  refine onCaches_spec (wp_mono (BlkCache.bwrite_spec io.rep i no buffers) ?_)
  rintro - caches ⟨after, rep, -, others⟩
  have keeps := buffers_kept buffers after others
  have recorded : Io loose { s with caches := caches } view
      (fun m => m ≠ no ∧ (m = no ∨ pending m)) held :=
    ⟨rep, keeps _ _ io.super, io.superHeld⟩
  refine ⟨recorded.pending_congr fun m => ⟨fun mark => ⟨?_, Or.inr mark⟩, ?_⟩, rfl, keeps⟩
  · rintro rfl
    exact settled mark
  · rintro ⟨differs, isNo | mark⟩
    · exact absurd isNo differs
    · exact mark

theorem brelse_spec {no : Nat} (io : Io loose s view pending (no ::ₘ held)) {i : Fin nBlkNum}
    (buffers : s.caches.Buffers i no) (settled : ¬ pending no) (superHeld : 0 ∈ held) :
    wp (Fs.brelse i) (fun _ after => Io loose after view pending held ∧ SameFs s after ∧
      ∀ j m, s.caches.Buffers j m → after.caches.Buffers j m) s := by
  refine onCaches_spec (wp_mono (BlkCache.brelse_spec io.rep i no buffers
    (Multiset.mem_cons_self ..) fun mark => absurd mark settled) ?_)
  rintro - caches ⟨after, rep, -, others⟩
  have keeps := buffers_kept buffers after others
  rw [Multiset.erase_cons_head] at rep
  exact ⟨⟨rep, keeps _ _ io.super, superHeld⟩, rfl, keeps⟩

/-- A field of the superblock. -/
theorem loadSuper_spec (io : Io loose s view pending held) {off n : Nat}
    (fits : 1024 + off + n ≤ blkSz) (tight : ∀ x, ¬ loose 0 x) :
    wp (loadSuper off n) (fun value after => value = load (view 0) (1024 + off) n ∧ after = s) s := by
  rw [loadSuper, wp_bind, wp_get]
  exact io.loadBuf_spec io.super fits fun x _ _ => tight x

end Io

end CuteCore.Fs
