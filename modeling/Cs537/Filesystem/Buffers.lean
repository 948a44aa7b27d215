import Cs537.Library.Runs
import Cs537.Filesystem.Log
import Mathlib.Data.List.Count
import Mathlib.Data.List.FinRange

/-!
# The buffer cache

A fixed number of buffers holds blocks of the disk, in the order of their last
use. A process looks a block up under the lock of the cache, which counts it as a
user of the buffer, and then waits for the sleep lock of the buffer; the two are
separate steps, and the steps of other processes come between them. A buffer that
no process uses and that is not dirty is recycled for another block.

The result justifies how the log sees the disk. Whatever is evicted and read
again, the holder of a buffer sees the block as the machine of the log does, with
every change that was announced or written; no two processes hold a block at a
time; and only `bwrite` changes the disk.
-/

namespace Cs537.Filesystem

open Cs537.Journal Cs537.Runs

def NBUF : Nat := MAXOPBLOCKS * 3

/-- A buffer: the flags B_VALID and B_DIRTY, the block, the users, the holder of the sleep lock,
and the data. -/
structure Buf where
  valid : Bool
  dirty : Bool
  dev : Nat
  blockno : Nat
  refcnt : Nat
  lock : Option Nat
  data : Block

/-- The buffers, the list through `prev` and `next` from the most recently used on, the disk, and
the processes that wait for a sleep lock after they have found their buffer. -/
structure Bcache where
  buf : Fin NBUF → Buf
  order : List (Fin NBUF)
  disk : Nat → Block
  waiting : List (Nat × Fin NBUF)

/-- Each buffer is put in front of those before it. -/
def binit (disk : Nat → Block) : Bcache where
  buf := fun _ => ⟨false, false, 0, 0, 0, none, fun _ => 0⟩
  order := (List.finRange NBUF).reverse
  disk := disk
  waiting := []

namespace Bcache

def set (c : Bcache) (i : Fin NBUF) (b : Buf) : Bcache := { c with buf := Function.update c.buf i b }

/-- The search from the head for the block. -/
def cached (c : Bcache) (dev blockno : Nat) : Option (Fin NBUF) :=
  c.order.find? fun i => (c.buf i).dev = dev ∧ (c.buf i).blockno = blockno

/-- The search from the tail for a buffer to recycle: without users and not dirty. -/
def unused (c : Bcache) : Option (Fin NBUF) :=
  c.order.reverse.find? fun i => (c.buf i).refcnt = 0 ∧ (c.buf i).dirty = false

/-- bget up to the release of the lock of the cache; none is the panic "bget: no buffers". -/
def bget (c : Bcache) (pid dev blockno : Nat) : Option Bcache :=
  match c.cached dev blockno with
  | some i =>
      some { c.set i { c.buf i with refcnt := (c.buf i).refcnt + 1 } with
        waiting := (pid, i) :: c.waiting }
  | none =>
      match c.unused with
      | some i =>
          some { c.set i { c.buf i with
              dev := dev
              blockno := blockno
              valid := false
              dirty := false
              refcnt := 1 } with
            waiting := (pid, i) :: c.waiting }
      | none => none

/-- iderw writes a dirty buffer and reads one that is not valid; none stands for its panics. -/
def iderw (size : Nat) (c : Bcache) (i : Fin NBUF) : Option Bcache :=
  let b := c.buf i
  if b.lock.isNone ∨ b.valid ∧ ¬ b.dirty ∨ b.dev ≠ 1 ∨ size ≤ b.blockno then none
  else if b.dirty then
    some { c.set i { b with dirty := false, valid := true } with
      disk := Function.update c.disk b.blockno b.data }
  else some (c.set i { b with data := c.disk b.blockno, valid := true })

/-- The rest of bget and of bread, when the sleep lock is free. -/
def acquiresleep (size : Nat) (c : Bcache) (pid : Nat) (i : Fin NBUF) : Option Bcache :=
  if (c.buf i).lock.isNone then
    let c := { c.set i { c.buf i with lock := some pid } with waiting := c.waiting.erase (pid, i) }
    if (c.buf i).valid then some c else iderw size c i
  else none

/-- The holder changes the data and announces it to the log, which marks the buffer dirty. -/
def log_write (c : Bcache) (pid : Nat) (i : Fin NBUF) (change : Block → Block) : Option Bcache :=
  if (c.buf i).lock = some pid then
    some (c.set i { c.buf i with data := change (c.buf i).data, dirty := true })
  else none

/-- The holder changes the data and writes the buffer. -/
def bwrite (size : Nat) (c : Bcache) (pid : Nat) (i : Fin NBUF) (change : Block → Block) :
    Option Bcache :=
  if (c.buf i).lock = some pid then
    iderw size (c.set i { c.buf i with data := change (c.buf i).data, dirty := true }) i
  else none

/-- A buffer without users goes to the front of the list. -/
def brelse (c : Bcache) (pid : Nat) (i : Fin NBUF) : Option Bcache :=
  if (c.buf i).lock = some pid then
    let c := c.set i { c.buf i with lock := none, refcnt := (c.buf i).refcnt - 1 }
    some (if (c.buf i).refcnt = 0 then { c with order := i :: c.order.erase i } else c)
  else none

end Bcache

/-- The steps of the processes on the buffers of the disk. -/
inductive BufferStep where
  | bget (pid blockno : Nat)
  | acquiresleep (pid : Nat) (i : Fin NBUF)
  | log_write (pid : Nat) (i : Fin NBUF) (change : Block → Block)
  | bwrite (pid : Nat) (i : Fin NBUF) (change : Block → Block)
  | brelse (pid : Nat) (i : Fin NBUF)

def bufferStep (size : Nat) (c : Bcache) : BufferStep → Option Bcache
  | .bget pid blockno => c.bget pid 1 blockno
  | .acquiresleep pid i => if (pid, i) ∈ c.waiting then c.acquiresleep size pid i else none
  | .log_write pid i change => c.log_write pid i change
  | .bwrite pid i change => c.bwrite size pid i change
  | .brelse pid i => c.brelse pid i

/-- How the log sees the same steps. -/
def seen (m : Machine) (before : Bcache) (action : BufferStep) (_ : Bcache) : Machine :=
  match action with
  | .log_write _ i change =>
      let blockno := (before.buf i).blockno
      { m with cache := Function.update m.cache blockno (change (m.bread blockno)) }
  | .bwrite _ i change =>
      let blockno := (before.buf i).blockno
      m.bwrite blockno (change (m.bread blockno))
  | _ => m

/-- The number of users of a buffer: those who wait, and the holder. -/
def Bcache.users (c : Bcache) (i : Fin NBUF) : Nat :=
  c.waiting.countP (fun waiter => waiter.2 = i) + (if (c.buf i).lock.isSome then 1 else 0)

/-- What a buffer holds, if it is valid, is what the machine of the log has of its block. -/
structure Buf.Fits (b : Buf) (m : Machine) : Prop where
  named : b.valid = true → b.dev = 1
  dirty : b.dirty = true → b.valid = true
  held : b.lock.isSome = true → b.valid = true
  clean : b.valid = true → b.dirty = false → b.data = m.disk b.blockno
  current : b.valid = true → b.data = m.cache b.blockno

/-- The buffers hold what the machine of the log has in its cache and on its disk. -/
structure Caches (c : Bcache) (m : Machine) : Prop where
  disk : c.disk = m.disk
  listed : ∀ i, i ∈ c.order
  distinct : ∀ i j, (c.buf i).dev = 1 → (c.buf j).dev = 1 →
    (c.buf i).blockno = (c.buf j).blockno → i = j
  users : ∀ i, (c.buf i).refcnt = c.users i
  named : ∀ i, c.users i ≠ 0 → (c.buf i).dev = 1
  fits : ∀ i, (c.buf i).Fits m
  absent : ∀ blockno, (∀ i, (c.buf i).valid = true → (c.buf i).blockno ≠ blockno) →
    m.cache blockno = m.disk blockno

variable {c c' : Bcache} {m m' : Machine} {i : Fin NBUF} {b : Buf}

/-- A step that replaces one buffer. The machine of the log changes at most at the block of the
new buffer, and a dirty buffer keeps its block. -/
theorem Caches.replace (caches : Caches c m) (buf : c'.buf = Function.update c.buf i b)
    (disk : c'.disk = m'.disk) (listed : ∀ j, j ∈ c'.order) (fits : b.Fits m')
    (apart : b.dev = 1 → ∀ j, j ≠ i → (c.buf j).dev = 1 → (c.buf j).blockno ≠ b.blockno)
    (counted : b.refcnt = c'.users i) (named : c'.users i ≠ 0 → b.dev = 1)
    (others : ∀ j, j ≠ i → c'.users j = c.users j)
    (same : ∀ blockno, (b.valid = true → b.blockno ≠ blockno) →
      m'.cache blockno = m.cache blockno ∧ m'.disk blockno = m.disk blockno)
    (kept : (c.buf i).dirty = true → b.valid = true ∧ b.blockno = (c.buf i).blockno) :
    Caches c' m' := by
  have here : c'.buf i = b := by rw [buf, Function.update_self]
  have there : ∀ j, j ≠ i → c'.buf j = c.buf j := by
    intro j other
    rw [buf, Function.update_of_ne other]
  refine ⟨disk, listed, fun j k one two equal => ?_, fun j => ?_, fun j => ?_, fun j => ?_,
    fun blockno none => ?_⟩
  · by_cases first : j = i
    · by_cases second : k = i
      · rw [first, second]
      · rw [first, here] at one equal
        rw [there k second] at two equal
        exact absurd equal.symm (apart one k second two)
    · rw [there j first] at one equal
      by_cases second : k = i
      · rw [second, here] at two equal
        exact absurd equal (apart two j first one)
      · rw [there k second] at two equal
        exact caches.distinct j k one two equal
  · by_cases first : j = i
    · rw [first, here, counted]
    · rw [there j first, others j first, caches.users]
  · by_cases first : j = i
    · rw [first, here]
      exact named
    · rw [there j first, others j first]
      exact caches.named j
  · by_cases first : j = i
    · rw [first, here]
      exact fits
    · rw [there j first]
      have old := caches.fits j
      have still : (c.buf j).valid = true → m'.cache (c.buf j).blockno = m.cache (c.buf j).blockno ∧
          m'.disk (c.buf j).blockno = m.disk (c.buf j).blockno := fun valid =>
        same _ fun now => (apart (fits.named now) j first (old.named valid)).symm
      exact ⟨old.named, old.dirty, old.held,
        fun valid clean => (old.clean valid clean).trans (still valid).2.symm,
        fun valid => (old.current valid).trans (still valid).1.symm⟩
  · have gone : b.valid = true → b.blockno ≠ blockno := here ▸ none i
    rw [(same blockno gone).1, (same blockno gone).2]
    by_cases held : (c.buf i).valid = true ∧ (c.buf i).blockno = blockno
    · obtain ⟨valid, rfl⟩ := held
      have clean : (c.buf i).dirty = false := by
        by_contra dirty
        obtain ⟨now, equal⟩ := kept (by simpa using dirty)
        exact gone now equal
      exact ((caches.fits i).current valid).symm.trans ((caches.fits i).clean valid clean)
    · apply caches.absent
      intro j valid
      by_cases first : j = i
      · rw [first] at valid ⊢
        exact fun equal => held ⟨valid, equal⟩
      · rw [← there j first] at valid ⊢
        exact none j valid

/-- A step that replaces one buffer and keeps its block and its users. -/
theorem Caches.update (caches : Caches c m) {data : Block} {valid dirty : Bool}
    (fits : Buf.Fits { c.buf i with data := data, valid := valid, dirty := dirty } m')
    (stays : (c.buf i).dirty = true → valid = true)
    (same : ∀ blockno, (valid = true → (c.buf i).blockno ≠ blockno) →
      m'.cache blockno = m.cache blockno ∧ m'.disk blockno = m.disk blockno) :
    Caches { c.set i { c.buf i with data := data, valid := valid, dirty := dirty } with
      disk := m'.disk } m' := by
  have users : ∀ j, Bcache.users { c.set i { c.buf i with data := data, valid := valid, dirty := dirty }
      with disk := m'.disk } j = c.users j := by
    intro j
    unfold Bcache.users Bcache.set
    by_cases first : j = i
    · rw [first]
      simp only [Function.update_self]
    · simp only [Function.update_of_ne first]
  refine caches.replace rfl rfl caches.listed fits ?_ ?_ ?_ (fun j _ => users j) same
    (fun was => ⟨stays was, rfl⟩)
  · intro dev j other named equal
    exact other (caches.distinct j i named dev equal)
  · rw [users]
    exact caches.users i
  · rw [users]
    exact caches.named i

theorem users_zero (free : c.users i = 0) :
    c.waiting.countP (fun waiter => waiter.2 = i) = 0 ∧ (c.buf i).lock = none := by
  unfold Bcache.users at free
  constructor
  · omega
  · cases lock : (c.buf i).lock with
    | none => rfl
    | some pid =>
      rw [lock] at free
      exact absurd free (Nat.succ_ne_zero _)

/-- A lookup finds the buffer of the block, or recycles one that nobody needs. -/
theorem Caches.bget (caches : Caches c m) {pid blockno : Nat}
    (found : c.bget pid 1 blockno = some c') : Caches c' m := by
  unfold Bcache.bget at found
  split at found
  · next i cached =>
    have pair : (c.buf i).dev = 1 ∧ (c.buf i).blockno = blockno := by
      simpa using List.find?_some cached
    rw [← Option.some.inj found]
    have old := caches.fits i
    refine caches.replace rfl caches.disk caches.listed
      ⟨old.named, old.dirty, old.held, old.clean, old.current⟩ ?_ ?_ (fun _ => pair.1) ?_
      (fun _ _ => ⟨rfl, rfl⟩) (fun dirty => ⟨old.dirty dirty, rfl⟩)
    · intro _ j other dev equal
      exact other (caches.distinct j i dev pair.1 equal)
    · have counted := caches.users i
      simp only [Bcache.users, Bcache.set, Function.update_self, List.countP_cons, decide_true,
        if_true] at counted ⊢
      omega
    · intro j other
      simp only [Bcache.users, Bcache.set, Function.update_of_ne other, List.countP_cons,
        decide_eq_true_eq, if_neg other.symm, Nat.add_zero]
  · next missing =>
    split at found
    · next i unused =>
      have free : (c.buf i).refcnt = 0 ∧ (c.buf i).dirty = false := by
        simpa using List.find?_some unused
      obtain ⟨waiting, unlocked⟩ := users_zero ((caches.users i).symm.trans free.1)
      rw [← Option.some.inj found]
      refine caches.replace rfl caches.disk caches.listed ?_ ?_ ?_ (fun _ => rfl) ?_
        (fun _ _ => ⟨rfl, rfl⟩) (fun dirty => absurd (free.2.symm.trans dirty) (by simp))
      · refine ⟨fun valid => absurd valid (by simp), fun dirty => absurd dirty (by simp),
          fun locked => absurd locked ?_, fun valid => absurd valid (by simp),
          fun valid => absurd valid (by simp)⟩
        simp [unlocked]
      · intro _ j _ dev equal
        have other := List.find?_eq_none.mp missing j (caches.listed j)
        simp [dev, equal] at other
      · simp only [Bcache.users, Bcache.set, Function.update_self, List.countP_cons, decide_true,
          if_true, waiting, unlocked]
        rfl
      · intro j other
        simp only [Bcache.users, Bcache.set, Function.update_of_ne other, List.countP_cons,
          decide_eq_true_eq, if_neg other.symm, Nat.add_zero]
    · exact absurd found (by simp)

/-- The sleep lock is taken, and a buffer that is not valid is read. -/
theorem Caches.acquiresleep (caches : Caches c m) {size pid : Nat} (waits : (pid, i) ∈ c.waiting)
    (locked : c.acquiresleep size pid i = some c') : Caches c' m := by
  have old := caches.fits i
  have used : c.users i ≠ 0 := by
    have some : 0 < c.waiting.countP fun waiter => waiter.2 = i :=
      List.countP_pos_iff.mpr ⟨(pid, i), waits, by simp⟩
    unfold Bcache.users
    omega
  have named := caches.named i used
  have moved : (c.waiting.erase (pid, i)).countP (fun waiter => waiter.2 = i) + 1 =
      c.waiting.countP fun waiter => waiter.2 = i := by
    have some : 0 < c.waiting.countP fun waiter => waiter.2 = i :=
      List.countP_pos_iff.mpr ⟨(pid, i), waits, by simp⟩
    rw [List.countP_erase, if_pos ⟨waits, by simp⟩]
    omega
  have apart : ∀ j, j ≠ i → (c.waiting.erase (pid, i)).countP (fun waiter => waiter.2 = j) =
      c.waiting.countP fun waiter => waiter.2 = j := by
    intro j other
    rw [List.countP_erase, if_neg, Nat.sub_zero]
    rintro ⟨-, same⟩
    exact other (by simpa using same : i = j).symm
  have others : ∀ j, j ≠ i → (c.buf j).dev = 1 → (c.buf j).blockno ≠ (c.buf i).blockno :=
    fun j other dev equal => other (caches.distinct j i dev named equal)
  have counted := caches.users i
  unfold Bcache.acquiresleep at locked
  split at locked
  · next free =>
    have unlocked : (c.buf i).lock = none := by simpa using free
    simp only [Bcache.set, Function.update_self] at locked
    split at locked
    · next valid =>
      rw [← Option.some.inj locked]
      refine caches.replace rfl caches.disk caches.listed
        ⟨old.named, old.dirty, fun _ => valid, old.clean, old.current⟩ (fun _ => others) ?_
        (fun _ => named) ?_ (fun _ _ => ⟨rfl, rfl⟩) (fun dirty => ⟨old.dirty dirty, rfl⟩)
      · simp only [Bcache.users, Function.update_self, unlocked] at counted ⊢
        simp only [Option.isSome_none, Bool.false_eq_true, if_false, Option.isSome_some, if_true]
          at counted ⊢
        omega
      · intro j other
        simp only [Bcache.users, Function.update_of_ne other, apart j other]
    · next invalid =>
      have clean : (c.buf i).dirty = false := by
        by_contra dirty
        exact invalid (old.dirty (by simpa using dirty))
      have missing : m.cache (c.buf i).blockno = m.disk (c.buf i).blockno := by
        apply caches.absent
        intro j valid equal
        by_cases same : j = i
        · exact invalid (same ▸ valid)
        · exact others j same ((caches.fits j).named valid) equal
      simp only [Bcache.iderw, Function.update_self] at locked
      split at locked
      · exact absurd locked (by simp)
      · rw [if_neg (by simp [clean])] at locked
        rw [← Option.some.inj locked]
        have read : ((c.disk (c.buf i).blockno) : Block) = m.disk (c.buf i).blockno :=
          congrFun caches.disk _
        refine caches.replace (b := { c.buf i with
            lock := some pid, data := c.disk (c.buf i).blockno, valid := true })
          (by simp only [Bcache.set, Function.update_idem]) caches.disk caches.listed
          ⟨fun _ => named, fun _ => rfl, fun _ => rfl, fun _ _ => read, fun _ => read.trans missing.symm⟩
          (fun _ => others) ?_ (fun _ => named) ?_ (fun _ _ => ⟨rfl, rfl⟩)
          (fun dirty => absurd (clean.symm.trans dirty) (by simp))
        · simp only [Bcache.users, Bcache.set, Function.update_self, unlocked] at counted ⊢
          simp only [Option.isSome_none, Bool.false_eq_true, if_false, Option.isSome_some, if_true]
            at counted ⊢
          omega
        · intro j other
          simp only [Bcache.users, Bcache.set, Function.update_of_ne other, apart j other]
  · exact absurd locked (by simp)

theorem Caches.holder (caches : Caches c m) {pid : Nat} (locked : (c.buf i).lock = some pid) :
    (c.buf i).valid = true ∧ (c.buf i).dev = 1 := by
  have valid := (caches.fits i).held (by rw [locked]; rfl)
  exact ⟨valid, (caches.fits i).named valid⟩

theorem Caches.log_write (caches : Caches c m) {pid : Nat} {change : Block → Block}
    (wrote : c.log_write pid i change = some c') :
    Caches c' { m with
      cache := Function.update m.cache (c.buf i).blockno (change (m.bread (c.buf i).blockno)) } := by
  unfold Bcache.log_write at wrote
  split at wrote
  · next locked =>
    obtain ⟨valid, dev⟩ := caches.holder locked
    have old := caches.fits i
    have data : (c.buf i).data = m.bread (c.buf i).blockno := old.current valid
    rw [← Option.some.inj wrote]
    have step := @Caches.update c m { m with
        cache := Function.update m.cache (c.buf i).blockno (change (m.bread (c.buf i).blockno)) } i caches
      (change (c.buf i).data) (c.buf i).valid true
      ⟨old.named, fun _ => valid, old.held, fun _ clean => absurd clean (by simp), fun _ => by
        change change (c.buf i).data = Function.update m.cache _ _ _
        rw [data, Function.update_self]⟩
      (fun _ => valid) (fun blockno other => ⟨Function.update_of_ne (other valid).symm .., rfl⟩)
    have same : c.set i { c.buf i with data := change (c.buf i).data, dirty := true } =
        { c.set i { c.buf i with data := change (c.buf i).data, dirty := true } with disk := m.disk } := by
      rw [← caches.disk]
      rfl
    rw [same]
    exact step
  · exact absurd wrote (by simp)

theorem Caches.bwrite (caches : Caches c m) {size pid : Nat} {change : Block → Block}
    (wrote : c.bwrite size pid i change = some c') :
    Caches c' (m.bwrite (c.buf i).blockno (change (m.bread (c.buf i).blockno))) := by
  unfold Bcache.bwrite at wrote
  split at wrote
  · next locked =>
    obtain ⟨valid, dev⟩ := caches.holder locked
    have old := caches.fits i
    have data : (c.buf i).data = m.bread (c.buf i).blockno := old.current valid
    simp only [Bcache.iderw, Bcache.set, Function.update_self, if_true, Function.update_idem] at wrote
    split at wrote
    · exact absurd wrote (by simp)
    · rw [← Option.some.inj wrote]
      have written : ∀ data : Block,
          (m.bwrite (c.buf i).blockno data).cache (c.buf i).blockno = data ∧
          (m.bwrite (c.buf i).blockno data).disk (c.buf i).blockno = data :=
        fun _ => ⟨Function.update_self .., Function.update_self ..⟩
      rw [data, caches.disk]
      exact @Caches.update c m (m.bwrite (c.buf i).blockno (change (m.bread (c.buf i).blockno))) i caches
        (change (m.bread (c.buf i).blockno)) true false
        ⟨fun _ => dev, fun _ => rfl, fun _ => rfl, fun _ _ => (written _).2.symm,
          fun _ => (written _).1.symm⟩
        (fun _ => rfl)
        (fun blockno other => ⟨Function.update_of_ne (other rfl).symm ..,
          Function.update_of_ne (other rfl).symm ..⟩)
  · exact absurd wrote (by simp)

theorem Caches.brelse (caches : Caches c m) {pid : Nat} (released : c.brelse pid i = some c') :
    Caches c' m := by
  unfold Bcache.brelse at released
  split at released
  · next locked =>
    obtain ⟨valid, dev⟩ := caches.holder locked
    have old := caches.fits i
    have counted := caches.users i
    have less : Caches (c.set i { c.buf i with lock := none, refcnt := (c.buf i).refcnt - 1 }) m := by
      refine caches.replace rfl caches.disk caches.listed
        ⟨old.named, old.dirty, fun locked => absurd locked (by simp), old.clean, old.current⟩
        (fun _ j other named equal => other (caches.distinct j i named dev equal)) ?_ (fun _ => dev) ?_
        (fun _ _ => ⟨rfl, rfl⟩) (fun dirty => ⟨old.dirty dirty, rfl⟩)
      · simp only [Bcache.users, Bcache.set, Function.update_self, locked] at counted ⊢
        simp only [Option.isSome_none, Bool.false_eq_true, if_false, Option.isSome_some, if_true]
          at counted ⊢
        omega
      · intro j other
        simp only [Bcache.users, Bcache.set, Function.update_of_ne other]
    rw [← Option.some.inj released]
    split
    · refine ⟨less.disk, fun j => ?_, less.distinct, less.users, less.named, less.fits, less.absent⟩
      by_cases first : j = i
      · exact first ▸ List.mem_cons_self
      · exact List.mem_cons_of_mem _ ((List.mem_erase_of_ne first).mpr (caches.listed j))
    · exact less
  · exact absurd released (by simp)

theorem step_caches {size : Nat} {action : BufferStep} (caches : Caches c m)
    (moved : bufferStep size c action = some c') : Caches c' (seen m c action c') := by
  cases action with
  | bget pid blockno => exact caches.bget moved
  | acquiresleep pid i =>
    simp only [bufferStep] at moved
    split at moved
    · next waits => exact caches.acquiresleep waits moved
    · exact absurd moved (by simp)
  | log_write pid i change => exact caches.log_write moved
  | bwrite pid i change => exact caches.bwrite moved
  | brelse pid i => exact caches.brelse moved

theorem binit_caches (disk : Nat → Block) : Caches (binit disk) (boot disk) where
  disk := rfl
  listed := fun i => List.mem_reverse.mpr (List.mem_finRange i)
  distinct := fun _ _ dev => absurd dev (by simp [binit])
  users := fun _ => rfl
  named := fun _ used => absurd rfl used
  fits := fun _ => ⟨fun valid => absurd valid (by simp [binit]), fun dirty => absurd dirty (by simp [binit]),
    fun locked => absurd locked (by simp [binit]), fun valid => absurd valid (by simp [binit]),
    fun valid => absurd valid (by simp [binit])⟩
  absent := fun _ _ => rfl

/-- The buffer cache is transparent. In every run the holder of a buffer has the data that the
machine of the log has for the block, no two processes hold one block, the disk is as the
machine of the log sees it, and a block whose announced change is not on the disk has a dirty
buffer. -/
theorem buffers_transparent {size : Nat} {disk : Nat → Block} {actions : List BufferStep}
    (completed : run (observe (bufferStep size) seen) (binit disk, boot disk) actions = some (c, m)) :
    c.disk = m.disk ∧
    (∀ i pid, (c.buf i).lock = some pid → (c.buf i).data = m.bread (c.buf i).blockno) ∧
    (∀ i j, (c.buf i).lock.isSome → (c.buf j).lock.isSome →
      (c.buf i).blockno = (c.buf j).blockno → i = j) ∧
    ∀ blockno, m.cache blockno ≠ m.disk blockno →
      ∃ i, (c.buf i).dirty = true ∧ (c.buf i).blockno = blockno ∧ (c.buf i).data = m.cache blockno := by
  have caches : Caches c m := by
    refine @run_invariant _ _ (observe (bufferStep size) seen) (fun _ _ => True)
      (fun both => Caches both.1 both.2) ?_ _ _ _ (binit_caches disk) (.unguarded _ _) completed
    rintro ⟨before, past⟩ action next - caches moved
    obtain ⟨after, stepped, rfl⟩ := Option.map_eq_some_iff.mp moved
    exact step_caches caches stepped
  refine ⟨caches.disk, fun i pid locked => ?_, fun i j one two equal => ?_, fun blockno changed => ?_⟩
  · exact (caches.fits i).current (caches.holder locked).1
  · obtain ⟨pid, locked⟩ := Option.isSome_iff_exists.mp one
    obtain ⟨pid', locked'⟩ := Option.isSome_iff_exists.mp two
    exact caches.distinct i j (caches.holder locked).2 (caches.holder locked').2 equal
  · by_contra none
    apply changed
    by_cases held : ∃ i, (c.buf i).valid = true ∧ (c.buf i).blockno = blockno
    · obtain ⟨i, valid, rfl⟩ := held
      have current := (caches.fits i).current valid
      have clean : (c.buf i).dirty = false := by
        by_contra dirty
        exact none ⟨i, by simpa using dirty, rfl, current⟩
      exact current.symm.trans ((caches.fits i).clean valid clean)
    · exact caches.absent blockno fun i valid equal => held ⟨i, valid, equal⟩

/-- One process announces a change while another waits for the block. -/
def handedOver : List BufferStep :=
  let first : Fin NBUF := ⟨0, by decide⟩
  [.bget 1 40, .acquiresleep 1 first, .bget 2 40, .log_write 1 first (fun block i => block i + 1),
    .brelse 1 first, .acquiresleep 2 first]

theorem buffers_transparent_handed_over :
    let last := final (observe (bufferStep 1000) seen)
      (binit fun _ _ => 0, boot fun _ _ => 0) handedOver
    last.1.disk = last.2.disk ∧
    (∀ i pid, (last.1.buf i).lock = some pid →
      (last.1.buf i).data = last.2.bread (last.1.buf i).blockno) ∧
    (∀ i j, (last.1.buf i).lock.isSome → (last.1.buf j).lock.isSome →
      (last.1.buf i).blockno = (last.1.buf j).blockno → i = j) ∧
    ∀ blockno, last.2.cache blockno ≠ last.2.disk blockno →
      ∃ i, (last.1.buf i).dirty = true ∧ (last.1.buf i).blockno = blockno ∧
        (last.1.buf i).data = last.2.cache blockno :=
  buffers_transparent (@run_final _ _ (observe (bufferStep 1000) seen)
    (binit fun _ _ => 0, boot fun _ _ => 0) handedOver (by decide +kernel))

end Cs537.Filesystem
