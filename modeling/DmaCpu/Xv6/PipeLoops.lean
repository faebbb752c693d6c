-- SUMMARY: What the copy loops of the pipe code move, as lists of bytes.
import DmaCpu.Xv6.Effects

/-!
# The copy loops

Each loop of `kpipe.c` moves a number of bytes that is known when it starts.
`putAll`, `getAll` and `handOver` are the moves of whole lists; a loop is one of
them, and its effect on the ring and on the history is stated once.
-/
namespace DmaCpu.Xv6

open Function List

/-- The number of bytes in the ring. -/
def Pipe.count (p : Pipe) : Nat := Ring.count p.nread p.nwrite

/-- The bytes in the ring, oldest first. -/
def Pipe.queue (p : Pipe) : List Byte := Ring.contents p.data p.nread p.nwrite

theorem Pipe.length_queue (p : Pipe) : p.queue.length = p.count := Ring.length_contents ..

variable {k : Kernel} {pi pj : PipeId} {p : Pipe}

namespace Kernel

theorem hasRoom_iff : hasRoom p ↔ p.count < pipesize := by
  simp [hasRoom, Pipe.count, Ring.count]

theorem add_ofNat_succ (x : Word) (n : Nat) :
    x + 1 + BitVec.ofNat 32 n = x + BitVec.ofNat 32 (n + 1) := by
  rw [BitVec.add_assoc, Nat.add_comm n 1, BitVec.ofNat_add]
  rfl

/-- The `n` bytes at address `src` of process `i`. -/
def bytesAt (k : Kernel) (i : Slot) (src : Word) (n : Nat) : List Byte :=
  (List.range n).map fun j => k.peek i (src + BitVec.ofNat 32 j)

section

variable (k : Kernel) (i : Slot) (src : Word)

@[simp] theorem length_bytesAt (n : Nat) :
    (k.bytesAt i src n).length = n := by
  simp [bytesAt]

theorem bytesAt_succ (n : Nat) :
    k.bytesAt i src (n + 1) = k.peek i src :: k.bytesAt i (src + 1) n := by
  rw [bytesAt, range_succ_eq_map, map_cons, map_map]
  congr 1
  · simp
  · apply map_congr_left
    intro j _
    simp only [comp_apply, add_ofNat_succ]

theorem bytesAt_zero : k.bytesAt i src 0 = [] := rfl

end

/-- What moving bytes leaves alone. -/
def still (k : Kernel) : Kernel :=
  { k with
    mem := fun _ _ => 0
    moves := fun _ => []
    calls := fun _ => {}
    pipes := fun pi => { k.pipes pi with data := fun _ => 0, nread := 0, nwrite := 0 } }

theorem setPipe_still
    (h : ({ p with data := fun _ => 0, nread := 0, nwrite := 0 } : Pipe) =
      { k.pipes pi with data := fun _ => 0, nread := 0, nwrite := 0 }) :
    (k.setPipe pi p).still = k.still := by
  have hpipes : (fun pj => ({ (k.setPipe pi p).pipes pj with
        data := fun _ => 0, nread := 0, nwrite := 0 } : Pipe)) =
      fun pj => { k.pipes pj with data := fun _ => 0, nread := 0, nwrite := 0 } := by
    funext pj
    by_cases hp : pj = pi
    · subst hp
      simpa [setPipe] using h
    · simp [setPipe, hp]
  simp only [still, hpipes]
  rfl

section

variable (k : Kernel) (pi : PipeId)

theorem takeByte_still (c : Nat) (b : Byte) :
    (k.takeByte pi c b).still = k.still := rfl

theorem handByte_still (i : Slot) (dst : Word) (b : Byte) :
    (k.handByte pi i dst b).still = k.still := rfl

theorem ringPut_still (c : Nat) (b : Byte) :
    (k.ringPut pi c b).still = k.still := by
  exact setPipe_still rfl

theorem ringGet_still (i : Slot) (dst : Word) :
    (k.ringGet pi i dst).still = k.still := by
  exact setPipe_still rfl

end

/-- Bytes have moved through pipe `pi`: the history of its stream goes on with
    `l`, call `c` has given `n` bytes, and the rest is in the ring and the images. -/
structure Moved (k k' : Kernel) (pi : PipeId) (c n : Nat) (l : List Move) : Prop where
  still : k'.still = k.still
  others : ∀ pj, pj ≠ pi → k'.pipes pj = k.pipes pj
  moves : k'.moves = update k.moves (k.pipes pi).stream (k.moves (k.pipes pi).stream ++ l)
  calls : k'.calls = update k.calls c { k.calls c with taken := (k.calls c).taken + n }

theorem Moved.refl (k : Kernel) (pi : PipeId) (c : Nat) : Moved k k pi c 0 [] :=
  ⟨rfl, fun _ _ => rfl, by simp, by simp⟩

theorem Moved.trans {k' k'' : Kernel} {c m n : Nat} {l l' : List Move} (h : Moved k k' pi c m l)
    (h' : Moved k' k'' pi c n l') : Moved k k'' pi c (m + n) (l ++ l') where
  still := h'.still.trans h.still
  others pj hp := (h'.others pj hp).trans (h.others pj hp)
  moves := by
    have hstream : (k'.pipes pi).stream = (k.pipes pi).stream :=
      congrArg (fun k => (k.pipes pi).stream) h.still
    rw [h'.moves, hstream, h.moves]
    simp
  calls := by
    rw [h'.calls, h.calls]
    simp [Nat.add_assoc]

/-! ## Into the ring -/

/-- Put a list of bytes of call `c` into the ring. -/
def putAll (k : Kernel) (pi : PipeId) (c : Nat) (bs : List Byte) : Kernel :=
  bs.foldl (fun k b => k.ringPut pi c b) k

section

variable (k : Kernel) (pi : PipeId) (c : Nat)

@[simp] theorem putAll_nil : k.putAll pi c [] = k := rfl

@[simp] theorem putAll_cons (b : Byte) (bs : List Byte) :
    k.putAll pi c (b :: bs) = (k.ringPut pi c b).putAll pi c bs := rfl

theorem ringPut_pipe (b : Byte) :
    (k.ringPut pi c b).pipes pi = { k.pipes pi with
      data := update (k.pipes pi).data (Ring.cell (k.pipes pi).nwrite) b
      nwrite := (k.pipes pi).nwrite + 1 } := by
  simp [ringPut, takeByte, log, setPipe]

end

theorem ringPut_count (c : Nat) (b : Byte) (h : (k.pipes pi).count < pipesize) :
    ((k.ringPut pi c b).pipes pi).count = (k.pipes pi).count + 1 := by
  rw [ringPut_pipe]
  have hlt : Ring.count (k.pipes pi).nread (k.pipes pi).nwrite + 1 < 2 ^ 32 := by
    have : Ring.count (k.pipes pi).nread (k.pipes pi).nwrite < 512 := h
    omega
  exact Ring.count_succ hlt

theorem ringPut_queue (c : Nat) (b : Byte) (h : (k.pipes pi).count < pipesize) :
    ((k.ringPut pi c b).pipes pi).queue = (k.pipes pi).queue ++ [b] := by
  rw [ringPut_pipe]
  exact Ring.contents_push (by decide) h (by decide) b

section

variable {bs : List Byte} (c : Nat) (h : (k.pipes pi).count + bs.length ≤ pipesize)
include h

theorem putAll_queue :
    ((k.putAll pi c bs).pipes pi).queue = (k.pipes pi).queue ++ bs := by
  induction bs generalizing k with
  | nil => simp
  | cons b bs ih =>
    simp only [length_cons] at h
    have hlt : (k.pipes pi).count < pipesize := by omega
    have h1 := ringPut_count c b hlt
    rw [putAll_cons, ih (by omega), ringPut_queue c b (by omega)]
    simp

theorem putAll_count :
    ((k.putAll pi c bs).pipes pi).count = (k.pipes pi).count + bs.length := by
  rw [← Pipe.length_queue, putAll_queue c h, length_append, Pipe.length_queue]

end

theorem putAll_moved (k : Kernel) (pi : PipeId) (c : Nat) (bs : List Byte) :
    Moved k (k.putAll pi c bs) pi c bs.length (bs.map (.take c)) := by
  induction bs generalizing k with
  | nil => exact .refl k pi c
  | cons b bs ih =>
    have hput : Moved k (k.ringPut pi c b) pi c 1 [.take c b] :=
      ⟨ringPut_still k pi c b, fun pj h => by simp [ringPut, takeByte, log, setPipe, h], rfl, rfl⟩
    rw [length_cons, Nat.add_comm]
    exact hput.trans (ih _)

theorem putAll_mem (k : Kernel) (pi : PipeId) (c : Nat) (bs : List Byte) :
    (k.putAll pi c bs).mem = k.mem := by
  induction bs generalizing k with
  | nil => rfl
  | cons b bs ih => exact ih _

/-- The number of bytes that still fit. -/
def room (p : Pipe) : Nat := pipesize - p.count

theorem pullLoop_eq (ws : Slot) (left : Nat) (src did : Word) :
    pullLoop pi ws left src did k =
      let n := min left (room (k.pipes pi))
      (k.putAll pi (k.callOf ws) (k.bytesAt ws src n), left - n,
        src + BitVec.ofNat 32 n, did + BitVec.ofNat 32 n) := by
  induction left generalizing src did k with
  | zero => simp [pullLoop, bytesAt_zero]
  | succ left ih =>
    rw [pullLoop]
    by_cases h : hasRoom (k.pipes pi)
    · have hlt := hasRoom_iff.mp h
      have hcount := ringPut_count (k.callOf ws) (k.peek ws src) hlt
      obtain ⟨n, hn, hn'⟩ : ∃ n, min left (room ((k.ringPut pi (k.callOf ws)
          (k.peek ws src)).pipes pi)) = n ∧ min (left + 1) (room (k.pipes pi)) = n + 1 := by
        refine ⟨_, rfl, ?_⟩
        simp only [room, hcount]
        omega
      rw [if_pos h, ih]
      simp only [hn, hn', bytesAt_succ, putAll_cons, add_ofNat_succ]
      refine Prod.ext rfl (Prod.ext ?_ rfl)
      simp only
      omega
    · have hge : room (k.pipes pi) = 0 := by
        have := mt hasRoom_iff.mpr h
        simp only [room]
        omega
      simp [h, hge, bytesAt_zero]

/-- The two loops into the ring differ in what they count. -/
theorem fillLoop_eq_pullLoop (pi : PipeId) (i : Slot) (m : Nat) (src did : Word) (done : Nat)
    (k : Kernel) : fillLoop pi i m src done k =
      ((pullLoop pi i m src did k).1, done + (m - (pullLoop pi i m src did k).2.1)) := by
  induction m generalizing src did done k with
  | zero => rfl
  | succ m ih =>
    rw [fillLoop, pullLoop]
    split
    · rw [ih _ (did + 1), pullLoop_eq]
      refine Prod.ext rfl ?_
      dsimp only
      omega
    · simp

theorem fillLoop_eq (i : Slot) (m : Nat) (src : Word) (done : Nat) :
    fillLoop pi i m src done k =
      let n := min m (room (k.pipes pi))
      (k.putAll pi (k.callOf i) (k.bytesAt i src n), done + n) := by
  rw [fillLoop_eq_pullLoop pi i m src 0, pullLoop_eq]
  rw [Nat.sub_sub_self (Nat.min_le_left _ _)]

/-! ## Out of the ring -/

/-- Move `n` bytes out of the ring, to address `dst` of process `i`. -/
def getAll (pi : PipeId) (i : Slot) : Nat → Word → Kernel → Kernel
  | 0, _, k => k
  | n + 1, dst, k => getAll pi i n (dst + 1) (k.ringGet pi i dst)

theorem ringGet_pipe (i : Slot) (dst : Word) :
    (k.ringGet pi i dst).pipes pi = { k.pipes pi with nread := (k.pipes pi).nread + 1 } := by
  simp [ringGet, handByte, log, poke, setMem, setPipe]

theorem count_pos_iff : 0 < p.count ↔ p.nread ≠ p.nwrite := by
  rw [Nat.pos_iff_ne_zero, ne_eq, Pipe.count, Ring.count_eq_zero]

theorem ringGet_count (i : Slot) (dst : Word) (h : 0 < (k.pipes pi).count) :
    ((k.ringGet pi i dst).pipes pi).count + 1 = (k.pipes pi).count := by
  rw [ringGet_pipe]
  exact Ring.count_pred (count_pos_iff.mp h)

theorem ringGet_queue (i : Slot) (dst : Word) (h : 0 < (k.pipes pi).count) :
    (k.pipes pi).queue = (k.pipes pi).data (Ring.cell (k.pipes pi).nread) ::
      ((k.ringGet pi i dst).pipes pi).queue := by
  rw [ringGet_pipe]
  exact Ring.contents_pop (count_pos_iff.mp h)

theorem getAll_queue (i : Slot) {n : Nat} (dst : Word) (h : n ≤ (k.pipes pi).count) :
    ((getAll pi i n dst k).pipes pi).queue = (k.pipes pi).queue.drop n := by
  induction n generalizing dst k with
  | zero => rfl
  | succ n ih =>
    have hpos : 0 < (k.pipes pi).count := by omega
    have hcount := ringGet_count i dst hpos
    rw [getAll, ih _ (by omega), ringGet_queue (k := k) i dst (by omega), drop_succ_cons]

theorem getAll_moved (i : Slot) (c : Nat) {n : Nat} (dst : Word) (h : n ≤ (k.pipes pi).count) :
    Moved k (getAll pi i n dst k) pi c 0 (((k.pipes pi).queue.take n).map (.hand i)) := by
  induction n generalizing dst k with
  | zero => exact .refl k pi c
  | succ n ih =>
    have hpos : 0 < (k.pipes pi).count := by omega
    have hcount := ringGet_count i dst hpos
    have hget : Moved k (k.ringGet pi i dst) pi c 0
        [.hand i ((k.pipes pi).data (Ring.cell (k.pipes pi).nread))] := by
      refine ⟨ringGet_still k pi i dst, fun pj h => ?_, rfl, ?_⟩
      · simp [ringGet, handByte, log, poke, setMem, setPipe, h]
      · simp [ringGet, handByte, log, poke, setMem, setPipe]
    rw [ringGet_queue i dst hpos]
    exact hget.trans (ih _ (by omega))

theorem readLoop_eq (i : Slot) (m : Nat) (dst : Word) (got : Nat) :
    readLoop pi i m dst got k =
      let n := min m (k.pipes pi).count
      (getAll pi i n dst k, got + n) := by
  induction m generalizing dst got k with
  | zero => simp [readLoop, getAll]
  | succ m ih =>
    rw [readLoop]
    by_cases h : (k.pipes pi).nread = (k.pipes pi).nwrite
    · have hzero : (k.pipes pi).count = 0 := Ring.count_eq_zero.mpr h
      simp [h, hzero, getAll]
    · have hcount := ringGet_count i dst (count_pos_iff.mpr h)
      obtain ⟨n, hn, hn'⟩ : ∃ n, min m ((k.ringGet pi i dst).pipes pi).count = n ∧
          min (m + 1) (k.pipes pi).count = n + 1 := ⟨_, rfl, by omega⟩
      rw [if_neg h, ih]
      simp only [hn, hn', getAll]
      refine Prod.ext rfl ?_
      omega

/-! ## From a writer to a parked reader -/

/-- Hand a list of bytes of call `c` to process `rs`, at address `dst`. -/
def handOver (pi : PipeId) (c : Nat) (rs : Slot) : List Byte → Word → Kernel → Kernel
  | [], _, k => k
  | b :: bs, dst, k =>
    handOver pi c rs bs (dst + 1) ((k.takeByte pi c b).handByte pi rs dst b)

section

variable (pi : PipeId) (c : Nat) (rs : Slot) (bs : List Byte) (dst : Word) (k : Kernel)

theorem handOver_moved : Moved k (handOver pi c rs bs dst k) pi c bs.length
      (bs.flatMap (Channel.pass c rs)) := by
  induction bs generalizing dst k with
  | nil => exact .refl k pi c
  | cons b bs ih =>
    have hpass : Moved k ((k.takeByte pi c b).handByte pi rs dst b) pi c 1 (Channel.pass c rs b) := by
      refine ⟨(handByte_still ..).trans (takeByte_still ..), fun _ _ => rfl, ?_, rfl⟩
      simp [takeByte, handByte, log, poke, setMem, Channel.pass]
    rw [length_cons, Nat.add_comm]
    exact hpass.trans (ih _ _)

theorem handOver_pipes : (handOver pi c rs bs dst k).pipes = k.pipes := by
  induction bs generalizing dst k with
  | nil => rfl
  | cons b bs ih => exact ih _ _

end

/-- The reader and the writer have different images, so handing bytes over does
    not change those that are still to come. -/
theorem depositLoop_eq {i rs : Slot} (m r : Nat) (rdst src : Word) (done : Nat)
    (h : k.img i ≠ k.img rs) : depositLoop pi i rs m r rdst src done k = let n := min m r
      (handOver pi (k.callOf i) rs (k.bytesAt i src n) rdst k, done + n) := by
  induction m generalizing r rdst src done k with
  | zero => simp [depositLoop, bytesAt_zero, handOver]
  | succ m ih =>
    cases r with
    | zero => simp [depositLoop, bytesAt_zero, handOver]
    | succ r =>
      generalize hk1 : (k.takeByte pi (k.callOf i) (k.peek i src)).handByte pi rs rdst
        (k.peek i src) = k1
      have hbytes : ∀ n, k1.bytesAt i (src + 1) n = k.bytesAt i (src + 1) n := by
        intro n
        have hmem : k1.mem (k1.img i) = k.mem (k.img i) := by
          rw [← hk1]
          simp only [img] at h
          simp [takeByte, handByte, log, poke, setMem, img, h]
        simp [bytesAt, peek, hmem]
      have hcall : k1.callOf i = k.callOf i := by rw [← hk1]; rfl
      have himg : k1.img i ≠ k1.img rs := by rw [← hk1]; exact h
      simp only [depositLoop, hk1]
      rw [ih r (rdst + 1) (src + 1) (done + 1) himg]
      simp only [hbytes, hcall, Nat.succ_min_succ, bytesAt_succ, handOver, hk1]
      refine Prod.ext rfl ?_
      omega

/-! ## Feeding a parked writer -/

/-- The number of bytes of the parked writer `ws` that fit into the ring. -/
def pulled (k : Kernel) (pi : PipeId) (ws : Slot) : Nat :=
  min (k.mailof ws).a2.toNat (room (k.pipes pi))

/-- The ring after as much as fits of the request of `ws` has been put into it. -/
def pullInto (k : Kernel) (pi : PipeId) (ws : Slot) : Kernel :=
  k.putAll pi (k.callOf ws) (k.bytesAt ws (k.mailof ws).a1 (k.pulled pi ws))

theorem pullWriter_of_none (h : k.kfindSleeper (.nwrite pi) = none) : k.pullWriter pi = k := by
  rw [pullWriter, h]

theorem pullWriter_of_some {ws : Slot} (h : k.kfindSleeper (.nwrite pi) = some ws) :
    k.pullWriter pi = let m := k.mailof ws
      let n := k.pulled pi ws
      if m.a2.toNat ≤ n then (k.pullInto pi ws).kcomplete ws (m.done + BitVec.ofNat 32 n)
      else (k.pullInto pi ws).setMail ws { m with
        a1 := m.a1 + BitVec.ofNat 32 n
        a2 := BitVec.ofNat 32 (m.a2.toNat - n)
        done := m.done + BitVec.ofNat 32 n } := by
  have hmail : (k.pullInto pi ws).mailof ws = k.mailof ws :=
    congrArg (·.mailof ws) (putAll_moved ..).still
  simp only [pullWriter, h, pullLoop_eq]
  rw [← pulled, ← pullInto]
  generalize k.pulled pi ws = n
  split
  next hk _ heq =>
    have hle : (k.mailof ws).a2.toNat ≤ n := by
      have := congrArg (·.2.1) heq
      simp only at this
      omega
    simp only [Prod.mk.injEq] at heq
    rw [if_pos hle, ← heq.1, ← heq.2.2.2]
  next left _ _ heq =>
    have hlt : (k.mailof ws).a2.toNat - n = left + 1 := congrArg (·.2.1) heq
    simp only [Prod.mk.injEq] at heq
    rw [if_neg (by omega), hlt, ← heq.1, ← heq.2.2.1, ← heq.2.2.2, hmail]

/-! ## Depositing in a parked reader's buffer -/

/-- The number of bytes of a write of `n` that the parked reader `rs` takes. -/
def deposited (k : Kernel) (rs : Slot) (n : Word) : Nat :=
  min n.toInt.toNat (k.mailof rs).a2.toNat

/-- The state after the current process has given the parked reader `rs` what
    it asked for of the bytes at `addr`. -/
def depositInto (k : Kernel) (pi : PipeId) (rs : Slot) (addr n : Word) : Kernel :=
  handOver pi (k.callOf k.curr) rs (k.bytesAt k.curr addr (k.deposited rs n)) (k.mailof rs).a1 k

theorem deposit_of_none (h : k.kfindSleeper (.nread pi) = none)
    (addr n : Word) : k.deposit pi addr n = (k, 0) := by
  rw [deposit, h]

theorem deposit_of_some {rs : Slot} (h : k.kfindSleeper (.nread pi) = some rs)
    (hne : k.img k.curr ≠ k.img rs) (addr n : Word) : k.deposit pi addr n =
      ((k.depositInto pi rs addr n).kcomplete rs (BitVec.ofNat 32 (k.deposited rs n)),
        k.deposited rs n) := by
  simp only [deposit, h, depositLoop_eq _ _ _ _ _ hne, Nat.zero_add]
  rfl

theorem depositLoop_still (pi : PipeId) (i rs : Slot) (m r : Nat) (rdst src : Word) (done : Nat)
    (k : Kernel) : (depositLoop pi i rs m r rdst src done k).1.still = k.still := by
  induction m generalizing r rdst src done k with
  | zero => rfl
  | succ m ih =>
    cases r with
    | zero => rfl
    | succ r => exact (ih ..).trans ((handByte_still ..).trans (takeByte_still ..))

/-- A deposit leaves the ends of the pipes as they are. -/
theorem deposit_readopen (k : Kernel) (pi pj : PipeId) (addr n : Word) :
    ((k.deposit pi addr n).1.pipes pj).readopen = (k.pipes pj).readopen := by
  rw [deposit]
  split
  · rfl
  · exact congrArg (fun k => (k.pipes pj).readopen) (depositLoop_still ..)

/-! ## The two calls -/

/-- The number of bytes that a read of `n` finds in the ring. -/
def drained (k : Kernel) (pi : PipeId) (n : Word) : Nat := min n.toInt.toNat (k.pipes pi).count

/-- The state after a read has taken what it wants from the ring. -/
def drainInto (k : Kernel) (pi : PipeId) (addr n : Word) : Kernel :=
  getAll pi k.curr (k.drained pi n) addr (k.openRead pi n)

section

variable (k : Kernel) (pi : PipeId) (addr n : Word)

theorem drainInto_moved (c : Nat) :
    Moved (k.openRead pi n) (k.drainInto pi addr n) pi c 0
      (((k.pipes pi).queue.take (k.drained pi n)).map (.hand k.curr)) :=
  getAll_moved _ _ _ (Nat.min_le_right _ _)

theorem drainInto_still :
    (k.drainInto pi addr n).still = (k.openRead pi n).still :=
  (drainInto_moved k pi addr n 0).still

theorem piperead_eq :
    k.piperead pi addr n =
      let k' := (k.drainInto pi addr n).pullWriter pi
      if 0 < k.drained pi n then (k', BitVec.ofNat 32 (k.drained pi n))
      else if (k'.pipes pi).writeopen then (k'.sleep (.nread pi), blocked)
      else (k', 0) := by
  simp only [piperead, readLoop_eq, Nat.zero_add]
  rfl

end

/-- The number of bytes that a write of `n` puts into the ring after `done` went
    to a reader. -/
def filled (k : Kernel) (pi : PipeId) (n : Word) (done : Nat) : Nat :=
  min (n.toInt - done).toNat (room (k.pipes pi))

def fillInto (k : Kernel) (pi : PipeId) (addr n : Word) (done : Nat) : Kernel :=
  k.putAll pi (k.callOf k.curr)
    (k.bytesAt k.curr (addr + BitVec.ofNat 32 done) (k.filled pi n done))

theorem pipewrite_of_shut (h : (k.pipes pi).readopen = false)
    (addr n : Word) : k.pipewrite pi addr n = (k.openCall pi addr n, -1) := by
  simp [pipewrite, openCall, h]

theorem pipewrite_of_open (h : (k.pipes pi).readopen = true) (addr n : Word) :
    k.pipewrite pi addr n = let k1 := ((k.openCall pi addr n).deposit pi addr n).1
      let d := ((k.openCall pi addr n).deposit pi addr n).2
      let k2 := k1.fillInto pi addr n d
      let done := d + k1.filled pi n d
      if (done : Int) = n.toInt then (k2, n) else (k2.parkWriter pi addr n done, blocked) := by
  have hopen : ((k.openCall pi addr n).pipes pi).readopen = true := h
  have hdep := (deposit_readopen (k.openCall pi addr n) pi pi addr n).trans hopen
  simp only [pipewrite, hopen, if_true, fillLoop_eq]
  generalize (k.openCall pi addr n).deposit pi addr n = r at hdep ⊢
  obtain ⟨k1, d⟩ := r
  have hfill : ((k1.fillInto pi addr n d).pipes pi).readopen = true :=
    (congrArg (fun k => (k.pipes pi).readopen) (putAll_moved ..).still).trans hdep
  simp only [fillInto, filled] at hfill ⊢
  simp only [hfill, if_true]
  rfl

end Kernel

end DmaCpu.Xv6
