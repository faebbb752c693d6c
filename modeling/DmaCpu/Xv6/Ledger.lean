-- SUMMARY: The books of the pipes: which bytes of which write call have been taken.
import DmaCpu.Xv6.PipeCalls

/-!
# The ledger

The history of a stream names the write call of every byte taken. The ledger
says that these entries agree with the calls' own records and with the
mailboxes of the callers that are parked.
-/
namespace DmaCpu.Xv6

open Function List BitVec Nat

open Channel (takes hands takesOf)

variable {k k' : Kernel} {l : List Move} {bs : List Byte} {c d : Nat} {pi : PipeId}
  {addr n : Word} {ws : Slot} {J : Kernel → Prop}

namespace Kernel

variable {P : Slot → Prop} {C : Kernel → Answer → Prop}

/-- The streams of the pipes are distinct, later ones are untouched, and no
    ring holds more than fits. -/
structure Streams (k : Kernel) : Prop where
  lt : ∀ pi, (k.pipes pi).stream < k.nstream
  inj : ∀ pi pj, (k.pipes pi).stream = (k.pipes pj).stream → pi = pj
  fresh : ∀ st, k.nstream ≤ st → k.moves st = []
  full : ∀ pi, (k.pipes pi).count ≤ pipesize

/-- A stream's history has taken the first bytes of each of its calls. -/
structure Books (k : Kernel) : Prop where
  taken : ∀ st c, takesOf c (k.moves st) =
    if st = (k.calls c).stream then (k.calls c).buf.take (k.calls c).taken else []
  le : ∀ c, (k.calls c).taken ≤ (k.calls c).buf.length
  blank : ∀ c, k.ncalls ≤ c → (k.calls c).taken = 0
  issued : ∀ c, c < k.ncalls → (k.calls c).stream < k.nstream

/-- `bs` are the next bytes of call `c`, which writes to pipe `pi`. -/
structure Next (k : Kernel) (pi : PipeId) (c : Nat) (bs : List Byte) : Prop where
  lt : c < k.ncalls
  stream : (k.calls c).stream = (k.pipes pi).stream
  bytes : bs <+: (k.calls c).buf.drop (k.calls c).taken

/-! ## One stage at a time -/

theorem Streams.same (h : k.Streams) (hb : SameBytes k k') : k'.Streams := by
  have hst : ∀ pi, (k'.pipes pi).stream = (k.pipes pi).stream :=
    fun pi => congrArg RingPart.stream (hb.ring pi)
  refine ⟨fun pi => ?_, fun pi pj => ?_, fun st hle => ?_, fun pi => ?_⟩
  · rw [hst, hb.nstream]
    exact h.lt pi
  · rw [hst, hst]
    exact h.inj pi pj
  · rw [hb.moves]
    exact h.fresh st (hb.nstream ▸ hle)
  · refine le_trans (le_of_eq ?_) (h.full pi)
    exact congrArg (fun r : RingPart => Ring.count r.nread r.nwrite) (hb.ring pi)

theorem Streams.congr (h : k.Streams) (hp : k'.pipes = k.pipes) (hn : k'.nstream = k.nstream)
    (hm : k'.moves = k.moves) : k'.Streams := by
  obtain ⟨hlt, hinj, hfresh, hfull⟩ := h
  rw [← hp] at hlt hinj hfull
  rw [← hn] at hlt hfresh
  rw [← hm] at hfresh
  exact ⟨hlt, hinj, hfresh, hfull⟩

theorem Streams.moved (h : k.Streams) (hm : Moved k k' pi c d l)
    (hc : (k'.pipes pi).count ≤ pipesize) : k'.Streams := by
  have hst : ∀ pj, (k'.pipes pj).stream = (k.pipes pj).stream :=
    fun pj => congrArg (fun k => (k.pipes pj).stream) hm.still
  have hn : k'.nstream = k.nstream := congrArg (·.nstream) hm.still
  refine ⟨fun pj => ?_, fun pj pj' => ?_, fun st hle => ?_, fun pj => ?_⟩
  · rw [hst, hn]
    exact h.lt pj
  · rw [hst, hst]
    exact h.inj pj pj'
  · rw [hn] at hle
    rw [hm.moves, update_of_ne (by have := h.lt pi; omega)]
    exact h.fresh st hle
  · by_cases hp : pj = pi
    · rwa [hp]
    · rw [hm.others pj hp]
      exact h.full pj

theorem Streams.putAll (h : k.Streams) (pi : PipeId) (c : Nat)
    (hfit : (k.pipes pi).count + bs.length ≤ pipesize) : (k.putAll pi c bs).Streams := by
  refine h.moved (putAll_moved ..) ?_
  rwa [putAll_count _ hfit]

theorem Streams.openPipe (h : k.Streams) (pi : PipeId) : (k.openPipe pi).Streams := by
  have hother : ∀ pj, pj ≠ pi → (k.openPipe pi).pipes pj = k.pipes pj := by
    intro pj hp
    simp [Kernel.openPipe, setPipe, hp]
  have hself : ((k.openPipe pi).pipes pi).stream = k.nstream := by
    simp [Kernel.openPipe, setPipe]
  have hn : (k.openPipe pi).nstream = k.nstream + 1 := rfl
  refine ⟨fun pj => ?_, fun pj pj' he => ?_, fun st hst => h.fresh st (by omega), fun pj => ?_⟩
  · by_cases hp : pj = pi
    · rw [hp]
      omega
    · rw [hother pj hp]
      have := h.lt pj
      omega
  · by_cases hp : pj = pi <;> by_cases hp' : pj' = pi
    · rw [hp, hp']
    · rw [hp, hother pj' hp'] at he
      have := h.lt pj'
      omega
    · rw [hp', hother pj hp] at he
      have := h.lt pj
      omega
    · rw [hother pj hp, hother pj' hp'] at he
      exact h.inj pj pj' he
  · by_cases hp : pj = pi
    · rw [hp]
      simp [Kernel.openPipe, setPipe, Pipe.count]
    · rw [hother pj hp]
      exact h.full pj

theorem Books.congr (h : k.Books) (hm : ∀ st c, takesOf c (k'.moves st) = takesOf c (k.moves st))
    (hn : k'.ncalls = k.ncalls) (hst : k.nstream ≤ k'.nstream)
    (hc : ∀ c, (k'.calls c).stream = (k.calls c).stream ∧ (k'.calls c).buf = (k.calls c).buf ∧
      (k'.calls c).taken = (k.calls c).taken) : k'.Books := by
  refine ⟨fun st c => ?_, fun c => ?_, fun c hle => ?_, fun c hlt => ?_⟩
  · rw [hm, (hc c).1, (hc c).2.1, (hc c).2.2]
    exact h.taken st c
  · rw [(hc c).2.1, (hc c).2.2]
    exact h.le c
  · rw [(hc c).2.2]
    exact h.blank c (hn ▸ hle)
  · rw [(hc c).1]
    exact lt_of_lt_of_le (h.issued c (hn ▸ hlt)) hst

theorem Books.same (h : k.Books) (hb : SameBytes k k') : k'.Books := by
  refine h.congr (fun _ _ => by rw [hb.moves]) hb.ncalls (le_of_eq hb.nstream.symm) fun c => ?_
  rw [hb.calls]
  exact ⟨rfl, rfl, rfl⟩

/-- A stream hands bytes over. -/
theorem Books.gave (h : k.Books) (hm : Moved k k' pi c 0 l) (hl : ∀ c, takesOf c l = []) :
    k'.Books := by
  have hc : k'.calls = k.calls := hm.calls.trans (by simp)
  refine h.congr (fun st d => ?_) (congrArg (·.ncalls) hm.still)
    (le_of_eq (congrArg (·.nstream) hm.still).symm) fun d => by simp [hc]
  rw [hm.moves]
  by_cases hst : st = (k.pipes pi).stream
  · rw [hst, update_self, Channel.takesOf_append, hl, append_nil]
  · rw [update_of_ne hst]

/-- The next bytes of call `c` are taken. -/
theorem Books.took (h : k.Books) (hx : k.Next pi c bs) (hm : Moved k k' pi c bs.length l)
    (hl : ∀ d, takesOf d l = if c = d then bs else []) : k'.Books := by
  obtain ⟨hstill, _, hm, hc⟩ := hm
  have hn : k'.ncalls = k.ncalls := congrArg (·.ncalls) hstill
  have hst : k'.nstream = k.nstream := congrArg (·.nstream) hstill
  have hlen : bs.length ≤ ((k.calls c).buf.drop (k.calls c).taken).length := hx.bytes.length_le
  rw [length_drop] at hlen
  have hbs : bs = ((k.calls c).buf.drop (k.calls c).taken).take bs.length :=
    prefix_iff_eq_take.mp hx.bytes
  refine ⟨fun st d => ?_, fun d => ?_, fun d hle => ?_, fun d hlt => ?_⟩
  · rw [hm, hc]
    by_cases hd : d = c
    · subst hd
      rw [update_self]
      by_cases hst : st = (k.pipes pi).stream
      · subst hst
        rw [update_self, Channel.takesOf_append, hl, if_pos rfl, h.taken,
          if_pos hx.stream.symm, if_pos hx.stream.symm, take_add, ← hbs]
      · rw [update_of_ne hst, h.taken, if_neg (hx.stream ▸ hst),
          if_neg (hx.stream ▸ hst)]
    · rw [update_of_ne hd, ← h.taken st d]
      by_cases hst : st = (k.pipes pi).stream
      · subst hst
        rw [update_self, Channel.takesOf_append, hl, if_neg (Ne.symm hd),
          append_nil]
      · rw [update_of_ne hst]
  · rw [hc]
    by_cases hd : d = c
    · subst hd
      have := h.le d
      simp only [update_self]
      omega
    · rw [update_of_ne hd]
      exact h.le d
  · have hd : d ≠ c := by
      have := hx.lt
      omega
    rw [hc, update_of_ne hd]
    exact h.blank d (hn ▸ hle)
  · have hd := h.issued d (hn ▸ hlt)
    rw [hc, hst]
    by_cases hdc : d = c
    · subst hdc
      rw [update_self]
      exact hd
    · rw [update_of_ne hdc]
      exact hd

theorem Books.openCall (h : k.Books) (hs : k.Streams) (pi : PipeId) (addr n : Word) :
    (k.openCall pi addr n).Books := by
  have hother : ∀ c, c ≠ k.ncalls → (k.openCall pi addr n).calls c = k.calls c := by
    intro c hc
    simp [Kernel.openCall, hc]
  have hself : ((k.openCall pi addr n).calls k.ncalls).taken = 0 := by
    simp [Kernel.openCall]
  have hmoves : (k.openCall pi addr n).moves = k.moves := rfl
  have hn : (k.openCall pi addr n).ncalls = k.ncalls + 1 := rfl
  refine ⟨fun st c => ?_, fun c => ?_, fun c hle => ?_, fun c hlt => ?_⟩
  all_goals by_cases hc : c = k.ncalls
  · subst hc
    have hnone : takesOf k.ncalls (k.moves st) = [] := by
      rw [h.taken, h.blank _ (le_refl _)]
      simp
    rw [hmoves, hself, hnone]
    simp
  · rw [hother c hc]
    exact h.taken st c
  · subst hc
    rw [hself]
    exact zero_le _
  · rw [hother c hc]
    exact h.le c
  · subst hc
    exact hself
  · rw [hother c hc]
    exact h.blank c (by omega)
  · subst hc
    simpa [Kernel.openCall] using hs.lt pi
  · rw [hother c hc]
    exact h.issued c (by omega)

/-! ## A write up to its answer -/

theorem bytesAt_take (i : Slot) (src : Word) {n m : Nat} (h : n ≤ m) :
    (k.bytesAt i src m).take n = k.bytesAt i src n := by
  rw [bytesAt, ← map_take, take_range, min_eq_left h, bytesAt]

theorem bytesAt_drop (k : Kernel) (i : Slot) (src : Word) (n m : Nat) :
    (k.bytesAt i src (n + m)).drop n = k.bytesAt i (src + BitVec.ofNat 32 n) m := by
  induction n generalizing src with
  | zero => simp
  | succ n ih =>
    rw [add_right_comm, bytesAt_succ, drop_succ_cons, ih, add_ofNat_succ]

theorem bytesAt_congr {i : Slot} (h : k'.peek i = k.peek i) (src : Word)
    (n : Nat) : k'.bytesAt i src n = k.bytesAt i src n := by
  simp [bytesAt, h]

theorem toInt_toNat_le (n : Word) : n.toInt.toNat ≤ n.toNat := by
  rw [toInt_eq_toNat_cond]
  split <;> omega

/-- What a deposit has done when `d` bytes of the current process have gone to
    a parked reader. -/
structure Deposited (k : Kernel) (pi : PipeId) (addr n : Word) (k' : Kernel) (d : Nat) : Prop where
  le : d ≤ n.toInt.toNat
  pipes : k'.pipes = k.pipes
  moved : ∃ rs m, m.pipes = k.pipes ∧ SameBytes m k' ∧ Moved k m pi (k.callOf k.curr) d
    ((k.bytesAt k.curr addr d).flatMap (Channel.pass (k.callOf k.curr) rs))
  inCall : k'.inCall = k.inCall
  curr : k'.curr = k.curr
  peek : k'.peek k.curr = k.peek k.curr

theorem deposit_deposited (hv : k.Vfork) (hc : k.Ready k.curr) (pi : PipeId) (addr n : Word) :
    Deposited k pi addr n (k.deposit pi addr n).1 (k.deposit pi addr n).2 := by
  cases hrs : k.kfindSleeper (.nread pi) with
  | none =>
    rw [deposit_of_none hrs]
    exact ⟨zero_le _, rfl, ⟨0, k, rfl, ⟨fun _ => rfl, rfl, rfl, rfl, rfl⟩, .refl ..⟩, rfl, rfl, rfl⟩
  | some rs =>
    have hne := hv.img_ne hc (kfindSleeper_some hrs) (by simp)
    have hmem : (k.depositInto pi rs addr n).mem (k.img k.curr) = k.mem (k.img k.curr) :=
      handOver_mem _ _ hne
    have hmoved := handOver_moved pi (k.callOf k.curr) rs
      (k.bytesAt k.curr addr (k.deposited rs n)) (k.mailof rs).a1 k
    have hpipes := handOver_pipes pi (k.callOf k.curr) rs
      (k.bytesAt k.curr addr (k.deposited rs n)) (k.mailof rs).a1 k
    rw [length_bytesAt] at hmoved
    rw [← depositInto] at hmoved hpipes
    rw [deposit_of_some hrs hne]
    generalize k.depositInto pi rs addr n = m at *
    have hframe := kcomplete_frame m pi rs (BitVec.ofNat 32 (k.deposited rs n))
    have hstill := hmoved.still
    refine ⟨min_le_left _ _, hpipes, ⟨rs, m, hpipes, ?_, hmoved⟩, congrArg (·.inCall) hstill,
      congrArg (·.curr) hstill, ?_⟩
    · exact ⟨fun _ => rfl, rfl, rfl, rfl, rfl⟩
    have himg : (m.kcomplete rs (BitVec.ofNat 32 (k.deposited rs n))).img k.curr = k.img k.curr :=
      (hframe.img _).trans (congrArg (·.img k.curr) hstill)
    funext a
    simp only [peek, himg]
    exact congrFun hmem a

/-- The state of a write call before its answer: the call has given the first
    `d` of its bytes. -/
structure Written (k : Kernel) (pi : PipeId) (addr n : Word) (k' : Kernel) (d : Nat) : Prop where
  le : d ≤ n.toInt.toNat
  calls : k'.calls = update k.calls k.ncalls
    { stream := (k.pipes pi).stream, buf := k.bytesAt k.curr addr n.toNat, taken := d }
  ncalls : k'.ncalls = k.ncalls + 1
  inCall : k'.inCall = update k.inCall k.curr (some (.write k.ncalls))
  curr : k'.curr = k.curr
  peek : k'.peek k.curr = k.peek k.curr
  streams : k.Streams → k'.Streams
  books : k.Streams → k.Books → k'.Books

/-- More bytes of the call have moved. -/
theorem Written.moved {m m' : Kernel} {e : Nat} (h : Written k pi addr n m d)
    (hm : Moved m m' pi k.ncalls e l) (hb : SameBytes m' k')
    (hl : ∀ c, takesOf c l =
      if k.ncalls = c then k.bytesAt k.curr (addr + BitVec.ofNat 32 d) e else [])
    (he : d + e ≤ n.toInt.toNat) (hst : (m.pipes pi).stream = (k.pipes pi).stream)
    (hfit : k.Streams → (m'.pipes pi).count ≤ pipesize) (hin : k'.inCall = m.inCall)
    (hcurr : k'.curr = m.curr) (hpeek : k'.peek k.curr = m.peek k.curr) :
    Written k pi addr n k' (d + e) := by
  have hcall : m.calls k.ncalls =
      { stream := (k.pipes pi).stream, buf := k.bytesAt k.curr addr n.toNat, taken := d } := by
    rw [h.calls, update_self]
  have hn : m'.ncalls = m.ncalls := congrArg (·.ncalls) hm.still
  refine ⟨he, ?_, (hb.ncalls.trans hn).trans h.ncalls, hin.trans h.inCall, hcurr.trans h.curr,
    hpeek.trans h.peek, fun hs => ((h.streams hs).moved hm (hfit hs)).same hb, fun hs hbk => ?_⟩
  · rw [hb.calls, hm.calls, h.calls]
    simp
  · rw [← length_bytesAt k k.curr (addr + BitVec.ofNat 32 d) e] at hm
    refine ((h.books hs hbk).took ⟨?_, ?_, ?_⟩ hm hl).same hb
    · rw [h.ncalls]
      exact lt_succ_self _
    · rw [hcall, hst]
    · have hnat : d + e ≤ n.toNat := le_trans he (toInt_toNat_le n)
      have hdrop := bytesAt_drop k k.curr addr d (n.toNat - d)
      rw [show d + (n.toNat - d) = n.toNat by omega] at hdrop
      rw [hcall]
      simp only [hdrop]
      rw [← bytesAt_take k.curr _ (show e ≤ n.toNat - d by omega)]
      exact take_prefix _ _

theorem openCall_written (k : Kernel) (pi : PipeId) (addr n : Word) :
    Written k pi addr n (k.openCall pi addr n) 0 where
  le := zero_le _
  calls := rfl
  ncalls := rfl
  inCall := rfl
  curr := rfl
  peek := rfl
  streams hs := hs.congr rfl rfl rfl
  books hs hb := hb.openCall hs pi addr n

theorem Deposited.written
    (h : Deposited (k.openCall pi addr n) pi addr n k' d) : Written k pi addr n k' d := by
  obtain ⟨rs, m, hp, hb, hm⟩ := h.moved
  have hid : (k.openCall pi addr n).callOf (k.openCall pi addr n).curr = k.ncalls := by
    simp [openCall, callOf]
  rw [hid] at hm
  have hw := (openCall_written k pi addr n).moved hm hb (fun c => ?_) (by simpa using h.le) rfl
    (fun hs => ?_) h.inCall h.curr h.peek
  · rwa [zero_add] at hw
  · rw [Channel.takesOf_flatMap_pass, BitVec.add_zero]
    rfl
  · rw [hp]
    exact hs.full pi

theorem filled_fits (h : k.Streams) (pi : PipeId) (n : Word) (hb : bs.length = k.filled pi n d) :
    (k.pipes pi).count + bs.length ≤ pipesize := by
  have hfull := h.full pi
  have hroom : k.filled pi n d ≤ room (k.pipes pi) := min_le_right _ _
  simp only [room] at hroom
  omega

/-- The fill that follows a deposit. -/
theorem Written.fill (h : Written k pi addr n k' d)
    (hst : (k'.pipes pi).stream = (k.pipes pi).stream) :
    Written k pi addr n (k'.fillInto pi addr n d) (d + k'.filled pi n d) := by
  have hle := h.le
  have hfit : k'.filled pi n d ≤ (n.toInt - d).toNat := min_le_left _ _
  have hsum : d + k'.filled pi n d ≤ n.toInt.toNat := by omega
  have hid : k'.callOf k'.curr = k.ncalls := by
    rw [callOf, h.inCall, h.curr, update_self]
  have hbytes : ∀ a m, k'.bytesAt k'.curr a m = k.bytesAt k.curr a m := by
    intro a m
    rw [h.curr, bytesAt_congr h.peek]
  have hmoved := putAll_moved k' pi k.ncalls
    (k.bytesAt k.curr (addr + BitVec.ofNat 32 d) (k'.filled pi n d))
  rw [length_bytesAt] at hmoved
  rw [fillInto, hid, hbytes]
  refine h.moved hmoved ⟨fun _ => rfl, rfl, rfl, rfl, rfl⟩ (fun c => Channel.takesOf_map_take ..)
    hsum hst (fun hs => ?_) (congrArg (·.inCall) hmoved.still) (congrArg (·.curr) hmoved.still) ?_
  · have hfits := filled_fits (h.streams hs) pi n (length_bytesAt k k.curr
      (addr + BitVec.ofNat 32 d) (k'.filled pi n d))
    rwa [putAll_count _ hfits]
  · funext a
    exact congrArg₂ (fun mem j => mem j a) (putAll_mem ..) (congrArg (·.img k.curr) hmoved.still)

theorem writeInto_written (hv : k.Vfork) (hc : k.Ready k.curr) (pi : PipeId) (addr n : Word) :
    Written k pi addr n (k.writeInto pi addr n) (k.disposed pi addr n) := by
  have hv1 : (k.openCall pi addr n).Vfork := hv.of_procs rfl rfl
  have hdep := deposit_deposited hv1 hc pi addr n
  refine hdep.written.fill ?_
  rw [hdep.pipes]
  rfl

/-! ## Parked callers -/

/-- Process `s` waits on pipe `pi` with the rest of call `c` in its mailbox. The
    tail of the system call left the count 1 there, not what had been done. -/
structure Waiting (k : Kernel) (s : Slot) (pi : PipeId) (c : Nat) : Prop where
  inCall : k.inCall s = some (.write c)
  stream : (k.calls c).stream = (k.pipes pi).stream
  left : (k.mailof s).a2.toNat = (k.calls c).buf.length - (k.calls c).taken
  bytes : k.bytesAt s (k.mailof s).a1 ((k.calls c).buf.length - (k.calls c).taken) =
    (k.calls c).buf.drop (k.calls c).taken
  progress : ∃ d, (k.calls c).parkedAt = some d ∧ d ≤ (k.calls c).taken ∧
    (k.mailof s).done = 1 + BitVec.ofNat 32 ((k.calls c).taken - d)

/-- The write calls in progress are distinct ones, every parked writer waits
    with the rest of its call, and every parked reader with its request. -/
structure Callers (k : Kernel) : Prop where
  lt : ∀ s c, k.inCall s = some (.write c) → c < k.ncalls
  inj : ∀ s t c, k.inCall s = some (.write c) → k.inCall t = some (.write c) → s = t
  waiting : ∀ s pi, k.SleepsOn s (.nwrite pi) → ∃ c, k.Waiting s pi c
  reading : ∀ s pi, k.SleepsOn s (.nread pi) →
    k.inCall s = some (.read (k.pipes pi).stream (k.mailof s).a2)

theorem Waiting.callOf {s : Slot} (h : k.Waiting s pi c) : k.callOf s = c := by
  rw [Kernel.callOf, h.inCall]

theorem Waiting.stays {k k' : Kernel} {s : Slot} {pi : PipeId} {c : Nat} {ch : Chan}
    (h : k.Waiting s pi c) (hs : Stays k k' s ch) (hc : k'.calls c = k.calls c)
    (hp : (k'.pipes pi).stream = (k.pipes pi).stream) : k'.Waiting s pi c where
  inCall := hs.inCall.trans h.inCall
  stream := by
    rw [hc, hp]
    exact h.stream
  left := by
    rw [hs.mail, hc]
    exact h.left
  bytes := by
    rw [hs.mail, hc, bytesAt_congr hs.mem]
    exact h.bytes
  progress := by
    rw [hs.mail, hc]
    exact h.progress

theorem Waiting.next {k : Kernel} {s : Slot} {pi : PipeId} {c n : Nat} (h : k.Waiting s pi c)
    (hw : k.Callers) (hn : n ≤ (k.mailof s).a2.toNat) :
    k.Next pi c (k.bytesAt s (k.mailof s).a1 n) where
  lt := hw.lt s c h.inCall
  stream := h.stream
  bytes := by
    rw [← h.bytes, ← bytesAt_take s _ (h.left ▸ hn)]
    exact take_prefix _ _

theorem Callers.quiet {k k' : Kernel} (hw : k.Callers) (h : Quiet P k k') : k'.Callers where
  lt s c hc := by
    rw [h.ncalls]
    exact hw.lt s c (h.inCall_eq hc)
  inj s t c hs ht := hw.inj s t c (h.inCall_eq hs) (h.inCall_eq ht)
  waiting s pi hs := by
    have hst := h.parked s _ hs trivial
    obtain ⟨c, hc⟩ := hw.waiting s pi hst.sleeps
    exact ⟨c, hc.stays hst (by rw [h.calls]) (congrArg RingPart.stream (h.ring pi))⟩
  reading s pi hs := by
    have hst := h.parked s _ hs trivial
    have hstream : (k'.pipes pi).stream = (k.pipes pi).stream :=
      congrArg RingPart.stream (h.ring pi)
    rw [hst.inCall, hst.mail, hstream]
    exact hw.reading s pi hst.sleeps

/-- Nobody is parked on the fresh pipe, since it was not in use. -/
theorem Callers.openPipe {k : Kernel} (hw : k.Callers) (hp : k.Ports) {pi : PipeId}
    (hu : (k.pipes pi).inuse = false) : (k.openPipe pi).Callers where
  lt := hw.lt
  inj := hw.inj
  waiting s pj hs := by
    obtain ⟨c, hc⟩ := hw.waiting s pj hs
    have hne : pj ≠ pi := by
      rintro rfl
      simp [hp.inuse pj (.inl (hp.writer s pj hs))] at hu
    refine ⟨c, hc.stays ⟨hs, rfl, rfl, rfl, rfl⟩ rfl ?_⟩
    simp [Kernel.openPipe, setPipe, hne]
  reading s pj hs := by
    have hne : pj ≠ pi := by
      rintro rfl
      simp [hp.inuse pj (.inr (hp.reader s pj hs))] at hu
    have hstream : ((k.openPipe pi).pipes pj).stream = (k.pipes pj).stream := by
      simp [Kernel.openPipe, setPipe, hne]
    rw [hstream]
    exact hw.reading s pj hs

/-! ## A read up to its answer -/

section

variable (k : Kernel) (pi : PipeId)

theorem drainInto_calls (addr n : Word) :
    (k.drainInto pi addr n).calls = k.calls :=
  (drainInto_moved k pi addr n 0).calls.trans (by simp [openRead])

theorem drainInto_ncalls (addr n : Word) :
    (k.drainInto pi addr n).ncalls = k.ncalls :=
  congrArg (·.ncalls) (drainInto_still k pi addr n)

theorem drained_le (n : Word) :
    k.drained pi n ≤ ((k.openRead pi n).pipes pi).count :=
  min_le_right _ _

theorem drainInto_queue :
    ((k.drainInto pi addr n).pipes pi).queue = (k.pipes pi).queue.drop (k.drained pi n) :=
  getAll_queue _ _ (drained_le k pi n)

end

theorem Streams.drainInto (h : k.Streams) (pi : PipeId) (addr n : Word) :
    (k.drainInto pi addr n).Streams := by
  have h1 : (k.openRead pi n).Streams := h.congr rfl rfl rfl
  have hfull := h.full pi
  refine h1.moved (drainInto_moved k pi addr n 0) ?_
  rw [← Pipe.length_queue, drainInto_queue, length_drop, Pipe.length_queue]
  omega

theorem Books.drainInto (h : k.Books) (pi : PipeId) (addr n : Word) :
    (k.drainInto pi addr n).Books := by
  have h1 : (k.openRead pi n).Books :=
    h.congr (fun _ _ => rfl) rfl (le_refl _) fun _ => ⟨rfl, rfl, rfl⟩
  exact h1.gave (drainInto_moved k pi addr n 0) fun c => Channel.takesOf_map_hand c _ _

theorem Callers.drainInto (hw : k.Callers) (hv : k.Vfork) (hc : k.Ready k.curr) (pi : PipeId)
    (addr n : Word) : (k.drainInto pi addr n).Callers := by
  have hframe := drainInto_frame k pi addr n
  have hin : (k.drainInto pi addr n).inCall = (k.openRead pi n).inCall :=
    congrArg (·.inCall) (drainInto_still ..)
  have hcurr : ∀ s c, (k.drainInto pi addr n).inCall s = some (.write c) →
      k.inCall s = some (.write c) := by
    intro s c h
    rw [hin] at h
    by_cases hs : s = k.curr
    · simp [openRead, hs] at h
    · simpa [openRead, hs] using h
  have hstays : ∀ s c, (∀ d, c ≠ .proc d) → (k.drainInto pi addr n).SleepsOn s c →
      Stays k (k.drainInto pi addr n) s c := by
    intro s c hd hs
    have hs0 : k.SleepsOn s c := by
      rwa [SleepsOn, drainInto_proc] at hs
    have hne : s ≠ k.curr := by
      rintro rfl
      exact hc.not_sleepsOn hs0
    exact hframe.keeps hs hne (hv.img_ne hc hs0 hd).symm
  refine ⟨fun s c h => ?_, fun s t c hs ht => hw.inj s t c (hcurr s c hs) (hcurr t c ht), ?_, ?_⟩
  · rw [drainInto_ncalls]
    exact hw.lt s c (hcurr s c h)
  · intro s pj hs
    have hst := hstays s _ (by simp) hs
    obtain ⟨c, hwait⟩ := hw.waiting s pj hst.sleeps
    exact ⟨c, hwait.stays hst (by rw [drainInto_calls]) (hframe.stream_eq pj)⟩
  · intro s pj hs
    have hst := hstays s _ (by simp) hs
    rw [hst.inCall, hst.mail, hframe.stream_eq]
    exact hw.reading s pj hst.sleeps

/-- What becomes of the parked writer that a read finds: it waits for another
    read with less, or it has given all its bytes and got its answer. -/
inductive Served (k k' : Kernel) (ws : Slot) (pi : PipeId) (c : Nat) : Prop where
  | more (hs : k'.SleepsOn ws (.nwrite pi)) (h : k'.Waiting ws pi c) (t : Nat)
      (hc : k'.calls c = { k.calls c with taken := t })
  | done (hr : k'.Ready ws)
      (hv : k'.r0 (k'.img ws) = (k.mailof ws).done + (k.mailof ws).a2)
      (hm : (k'.mailof ws).ret = (k.mailof ws).done + (k.mailof ws).a2)
      (hc : k'.calls c = { k.calls c with taken := (k.calls c).buf.length })

theorem pullInto_calls
    (h : k.Waiting ws pi c) : (k.pullInto pi ws).calls = update k.calls c
      { k.calls c with taken := (k.calls c).taken + k.pulled pi ws } := by
  rw [pullInto, h.callOf, (putAll_moved ..).calls, length_bytesAt]

theorem pullWriter_served (hb : k.Books) (hws : k.kfindSleeper (.nwrite pi) = some ws)
    (h : k.Waiting ws pi c) : Served k (k.pullWriter pi) ws pi c := by
  have hs := kfindSleeper_some hws
  have hle := hb.le c
  have hleft := h.left
  have hpl : k.pulled pi ws ≤ (k.mailof ws).a2.toNat := min_le_left _ _
  have hcalls := pullInto_calls h
  have hstill : (k.pullInto pi ws).still = k.still := (putAll_moved ..).still
  have hmem : (k.pullInto pi ws).mem = k.mem := putAll_mem ..
  rw [pullWriter_of_some hws]
  generalize k.pullInto pi ws = m at *
  generalize k.pulled pi ws = n at *
  have himg : m.img ws = k.img ws := congrArg (·.img ws) hstill
  dsimp only
  split
  next hfit =>
    have hn : n = (k.mailof ws).a2.toNat := le_antisymm hpl hfit
    have hword : BitVec.ofNat 32 n = (k.mailof ws).a2 := by
      rw [hn, ofNat_toNat, setWidth_eq]
    rw [hword]
    refine .done (.inl ?_) ?_ ?_ ?_
    · simp [kcomplete, wake, setProc]
    · simp [kcomplete, wake, setret, setProc, img]
    · simp [kcomplete, wake, setret, setProc, mailof, img]
    · refine Eq.trans (congrFun hcalls c) ?_
      rw [update_self, hn, hleft, Nat.add_sub_cancel' hle]
  next hfit =>
    have hproc : m.proc = k.proc := congrArg (·.proc) hstill
    have hself : ∀ x, (m.setMail ws x).mailof ws = x := by
      simp [setMail, mailof, img]
    have hcall : ∀ x, (m.setMail ws x).calls c =
        { k.calls c with taken := (k.calls c).taken + n } := by
      intro x
      refine Eq.trans (congrFun hcalls c) ?_
      rw [update_self]
    refine .more ?_ ⟨?_, ?_, ?_, ?_, ?_⟩ _ (hcall _)
    · rw [SleepsOn]
      exact hproc ▸ hs
    · exact (congrFun (congrArg (·.inCall) hstill) ws).trans h.inCall
    · rw [hcall]
      exact h.stream.trans (congrArg (fun k => (k.pipes pi).stream) hstill).symm
    · rw [hself, hcall, toNat_ofNat]
      dsimp only
      omega
    · have hpeek : ∀ x, (m.setMail ws x).peek ws = k.peek ws := by
        intro x
        funext a
        exact congrArg₂ (fun mem j => mem j a) hmem himg
      rw [hself, hcall, bytesAt_congr (hpeek _)]
      dsimp only
      rw [← drop_drop, ← h.bytes, ← bytesAt_drop]
      congr 2
      omega
    · obtain ⟨d, hd, hdle, hdone⟩ := h.progress
      refine ⟨d, ?_, ?_, ?_⟩ <;> rw [hcall]
      · exact hd
      · exact le_trans hdle (le_add_right _ _)
      · rw [hself, hdone, BitVec.add_assoc, ← BitVec.ofNat_add]
        dsimp only
        congr 2
        omega

theorem pullWriter_inCall (k : Kernel) (pi : PipeId) : (k.pullWriter pi).inCall = k.inCall ∧
    (k.pullWriter pi).ncalls = k.ncalls := by
  cases hws : k.kfindSleeper (.nwrite pi) with
  | none =>
    rw [pullWriter_of_none hws]
    exact ⟨rfl, rfl⟩
  | some ws =>
    have hstill : (k.pullInto pi ws).still = k.still := (putAll_moved ..).still
    have hin := congrArg (·.inCall) hstill
    have hn := congrArg (·.ncalls) hstill
    rw [pullWriter_of_some hws]
    dsimp only
    split <;> exact ⟨hin, hn⟩

theorem pullWriter_bytes (hws : k.kfindSleeper (.nwrite pi) = some ws) :
    SameBytes (k.pullInto pi ws) (k.pullWriter pi) := by
  rw [pullWriter_of_some hws]
  dsimp only
  split <;> exact ⟨fun _ => rfl, rfl, rfl, rfl, rfl⟩

theorem pullInto_fits (h : k.Streams) (pi : PipeId) (ws : Slot) :
    (k.pipes pi).count + (k.bytesAt ws (k.mailof ws).a1 (k.pulled pi ws)).length ≤ pipesize := by
  have hfull := h.full pi
  have hroom : k.pulled pi ws ≤ room (k.pipes pi) := min_le_right _ _
  rw [length_bytesAt]
  simp only [room] at hroom
  omega

theorem Streams.pullWriter (h : k.Streams) (pi : PipeId) : (k.pullWriter pi).Streams := by
  cases hws : k.kfindSleeper (.nwrite pi) with
  | none => rwa [pullWriter_of_none hws]
  | some ws =>
    have hs : (k.pullInto pi ws).Streams := h.putAll pi _ (pullInto_fits h pi ws)
    exact hs.same (pullWriter_bytes hws)

theorem Books.pullWriter (h : k.Books) (hw : k.Callers) (pi : PipeId) :
    (k.pullWriter pi).Books := by
  cases hws : k.kfindSleeper (.nwrite pi) with
  | none => rwa [pullWriter_of_none hws]
  | some ws =>
    obtain ⟨c, hc⟩ := hw.waiting ws pi (kfindSleeper_some hws)
    have hnext := hc.next hw (min_le_left _ (room (k.pipes pi)))
    suffices hb : (k.pullInto pi ws).Books from hb.same (pullWriter_bytes hws)
    rw [pullInto, hc.callOf]
    exact h.took hnext (putAll_moved ..) fun d => Channel.takesOf_map_take d c _

/-- The calls of the callers that are not served are as they were. -/
theorem pullWriter_calls (hw : k.Callers) {s : Slot} (hs : k.inCall s = some (.write c))
    (hne : k.kfindSleeper (.nwrite pi) ≠ some s) : (k.pullWriter pi).calls c = k.calls c := by
  cases hws : k.kfindSleeper (.nwrite pi) with
  | none => rw [pullWriter_of_none hws]
  | some ws =>
    obtain ⟨c', hc'⟩ := hw.waiting ws pi (kfindSleeper_some hws)
    have hcne : c ≠ c' := by
      rintro rfl
      rw [hw.inj s ws c hs hc'.inCall] at hne
      exact hne hws
    rw [(pullWriter_bytes hws).calls, pullInto_calls hc', update_of_ne hcne]

theorem Callers.pullWriter (hw : k.Callers) (hb : k.Books) (hv : k.Vfork) (hc : k.Ready k.curr)
    (pi : PipeId) : (k.pullWriter pi).Callers := by
  have hframe := pullWriter_frame k pi
  obtain ⟨hin, hn⟩ := pullWriter_inCall k pi
  have hback : ∀ s c, (k.pullWriter pi).SleepsOn s c → k.SleepsOn s c :=
    fun s c => (pullWriter_slot (R := fun _ => False) k pi s).sleepsOn
  have hstays : ∀ s c, (k.pullWriter pi).SleepsOn s c → Chan.IsPipe c →
      k.kfindSleeper (.nwrite pi) ≠ some s → Stays k (k.pullWriter pi) s c := by
    intro s c hs hpipe hq
    have hsc : s ≠ k.curr := by
      rintro rfl
      exact hc.not_sleepsOn (hback _ c hs)
    exact hframe.stays hv hc (fun t ht => kfindSleeper_watched ht trivial) hs hpipe hsc hq
  refine ⟨fun s c hs => ?_, fun s t c hs ht => ?_, fun s pj hs => ?_, fun s pj hs => ?_⟩
  · rw [hn]
    exact hw.lt s c (hin ▸ hs)
  · exact hw.inj s t c (hin ▸ hs) (hin ▸ ht)
  · have hs0 := hback s _ hs
    obtain ⟨c, hwait⟩ := hw.waiting s pj hs0
    by_cases hq : k.kfindSleeper (.nwrite pi) = some s
    · have hpj : pj = pi := by
        have := hs0.2.symm.trans (kfindSleeper_some hq).2
        exact Chan.nwrite.inj this
      subst hpj
      cases pullWriter_served hb hq hwait with
      | more _ h _ _ => exact ⟨c, h⟩
      | done hr => exact absurd hs hr.not_sleepsOn
    · exact ⟨c, hwait.stays (hstays s _ hs trivial hq) (pullWriter_calls hw hwait.inCall hq)
        (hframe.stream_eq pj)⟩
  · have hq : k.kfindSleeper (.nwrite pi) ≠ some s := by
      intro h
      cases (hback s _ hs).2.symm.trans (kfindSleeper_some h).2
    have hst := hstays s _ hs trivial hq
    rw [hst.inCall, hst.mail, hframe.stream_eq]
    exact hw.reading s pj hst.sleeps

/-! ## Whole calls -/

structure Ledger (k : Kernel) : Prop where
  streams : k.Streams
  books : k.Books
  callers : k.Callers

theorem Ledger.quiet (hl : k.Ledger) (h : Quiet P k k') : k'.Ledger :=
  ⟨hl.streams.same h.toSameBytes, hl.books.same h.toSameBytes, hl.callers.quiet h⟩

theorem Ledger.openPipe (hl : k.Ledger) (hp : k.Ports)
    (hu : (k.pipes pi).inuse = false) : (k.openPipe pi).Ledger :=
  ⟨hl.streams.openPipe pi, hl.books.congr (fun _ _ => rfl) rfl (le_succ _) fun _ => ⟨rfl, rfl, rfl⟩,
    hl.callers.openPipe hp hu⟩

theorem Ledger.readInto (hl : k.Ledger) (hv : k.Vfork) (hc : k.Ready k.curr) (pi : PipeId)
    (addr n : Word) : (k.readInto pi addr n).Ledger := by
  have hproc := drainInto_proc k pi addr n
  have hframe := drainInto_frame k pi addr n
  have hv1 : (k.drainInto pi addr n).Vfork := hv.of_procs hproc hframe.nimg
  have hc1 : (k.drainInto pi addr n).Ready (k.drainInto pi addr n).curr := by
    rwa [Ready, hproc, hframe.curr]
  have hb1 := hl.books.drainInto pi addr n
  have hw1 := hl.callers.drainInto hv hc pi addr n
  exact ⟨(hl.streams.drainInto pi addr n).pullWriter pi, hb1.pullWriter hw1 pi,
    hw1.pullWriter hb1 hv1 hc1 pi⟩

theorem readInto_inCall (k : Kernel) (pi : PipeId) (addr n : Word) :
    (k.readInto pi addr n).inCall =
      update k.inCall k.curr (some (.read (k.pipes pi).stream n)) :=
  (pullWriter_inCall _ pi).1.trans (congrArg (·.inCall) (drainInto_still ..))

/-- The reader's own mailbox is not touched before the answer. -/
theorem readInto_mailof (hv : k.Vfork) (hc : k.Ready k.curr) (pi : PipeId)
    (addr n : Word) : (k.readInto pi addr n).mailof k.curr = k.mailof k.curr := by
  have hproc := drainInto_proc k pi addr n
  have hmail : (k.drainInto pi addr n).mailof k.curr = k.mailof k.curr :=
    congrArg (·.mailof k.curr) (drainInto_still k pi addr n)
  rw [← hmail, Kernel.readInto]
  generalize k.drainInto pi addr n = m at *
  cases hws : m.kfindSleeper (.nwrite pi) with
  | none => rw [pullWriter_of_none hws]
  | some ws =>
    have hs0 : k.SleepsOn ws (.nwrite pi) := by
      have := kfindSleeper_some hws
      rwa [SleepsOn, hproc] at this
    have hne : m.img k.curr ≠ m.img ws := by
      rw [img, img, hproc]
      exact hv.img_ne hc hs0 (by simp)
    have hstill : (m.pullInto pi ws).still = m.still := (putAll_moved ..).still
    have hput : (m.pullInto pi ws).mail = m.mail := congrArg (·.mail) hstill
    have himg : ∀ s, (m.pullInto pi ws).img s = m.img s := fun s => congrArg (·.img s) hstill
    rw [pullWriter_of_some hws]
    generalize m.pullInto pi ws = m' at *
    dsimp only
    split
    · have himg' : (m'.kcomplete ws ((m.mailof ws).done + BitVec.ofNat 32 (m.pulled pi ws))).img
          k.curr = m.img k.curr := by
        rw [(kcomplete_frame m' pi ws _).img, himg]
      rw [mailof, himg']
      simp [kcomplete, wake, setret, setProc, himg, hne, hput, mailof]
    · rw [mailof, show (m'.setMail ws _).img k.curr = m.img k.curr from himg k.curr]
      simp [setMail, himg, hne, hput, mailof]

/-- What the current process does after its read leaves the ledger alone. -/
theorem Ledger.tail (hl : k.Ledger) (hf : IoFrame k k' pi none) (hb : SameBytes k k')
    (hin : k'.inCall = k.inCall) (hself : ∀ pj, ¬ k'.SleepsOn k.curr (.nwrite pj))
    (hread : ∀ pj, k'.SleepsOn k.curr (.nread pj) →
      k'.inCall k.curr = some (.read (k'.pipes pj).stream (k'.mailof k.curr).a2))
    (himg : ∀ s c, Chan.IsPipe c → k.SleepsOn s c → k.img s ≠ k.img k.curr) : k'.Ledger := by
  have hstays : ∀ s c, k'.SleepsOn s c → Chan.IsPipe c → s ≠ k.curr → Stays k k' s c := by
    intro s c hs hc hsc
    obtain ⟨hst, hch, _⟩ := place_eq_iff.mp (hf.others s hsc (by simp))
    exact hf.keeps hs hsc (himg s c hc ⟨hst ▸ hs.1, hch ▸ hs.2⟩)
  refine ⟨hl.streams.same hb, hl.books.same hb, fun s c hs => ?_, fun s t c hs ht => ?_,
    fun s pj hs => ?_, fun s pj hs => ?_⟩
  · rw [hb.ncalls]
    exact hl.callers.lt s c (hin ▸ hs)
  · exact hl.callers.inj s t c (hin ▸ hs) (hin ▸ ht)
  · have hst := hstays s _ hs trivial fun h => hself pj (h ▸ hs)
    obtain ⟨c, hwait⟩ := hl.callers.waiting s pj hst.sleeps
    exact ⟨c, hwait.stays hst (by rw [hb.calls]) (hf.stream_eq pj)⟩
  · by_cases hsc : s = k.curr
    · subst hsc
      exact hread pj hs
    · have hst := hstays s _ hs trivial hsc
      rw [hst.inCall, hst.mail, hf.stream_eq]
      exact hl.callers.reading s pj hst.sleeps

theorem sysTail_a2 (k : Kernel) (o : Outcome) :
    ((k.sysTail o).mailof k.curr).a2 = (k.mailof k.curr).a2 := by
  have hset : ∀ v, ((k.setret k.curr v).mailof k.curr).a2 = (k.mailof k.curr).a2 := by
    simp [setret, mailof, img]
  cases o with
  | ret v =>
    rw [mailof, sysTail_img]
    exact hset v
  | resume => rfl
  | block v =>
    rw [sysTail]
    split
    · exact hset v
    · rfl

/-- What a read does after it has served the parked writer concerns only its
    caller. -/
structure ReadTail (m k' : Kernel) (pi : PipeId) : Prop where
  frame : IoFrame m k' pi none
  bytes : SameBytes m k'
  inCall : k'.inCall = m.inCall
  a2 : (k'.mailof m.curr).a2 = (m.mailof m.curr).a2

theorem read_tail (k : Kernel) (pi : PipeId) (addr n : Word) :
    ReadTail (k.readInto pi addr n) (ioTail (k.piperead pi addr n)) pi := by
  have hout := read_outcome k pi addr n
  generalize ioTail (k.piperead pi addr n) = k' at hout
  have hret : ∀ (m : Kernel) (o : Outcome), ReadTail m (m.sysTail o) pi := fun m o =>
    ⟨sysTail_ioFrame m pi o, (sysTail_frame m o).toSameBytes, (sysTail_frame m o).inCall,
      sysTail_a2 m o⟩
  cases hout with
  | got => exact hret _ _
  | eof => exact hret _ _
  | parks =>
    generalize k.readInto pi addr n = m
    have ht := hret (m.sleep (.nread pi)) (.block blocked)
    have hsb : SameBytes m (m.sleep (.nread pi)) := ⟨fun _ => rfl, rfl, rfl, rfl, rfl⟩
    have hmail : (m.sleep (.nread pi)).mailof m.curr = m.mailof m.curr := by
      simp [sleep, setProc, mailof, img]
    refine ⟨(sleep_frame m pi _).trans ht.frame, hsb.trans ht.bytes, ht.inCall, ?_⟩
    exact ht.a2.trans (congrArg Mail.a2 hmail)

theorem Ledger.read (hl : k.Ledger) (hv : k.Vfork) (hc : k.Ready k.curr) (pi : PipeId)
    (addr : Word) : (ioTail (k.piperead pi addr (k.mailof k.curr).a2)).Ledger := by
  generalize hn : (k.mailof k.curr).a2 = n
  have hframe := readInto_frame k pi addr n
  have htail := read_tail k pi addr n
  have hself : ∀ c, (ioTail (k.piperead pi addr n)).SleepsOn (k.readInto pi addr n).curr c →
      c = .nread pi := by
    intro c hs
    rw [hframe.curr] at hs
    exact (read_sleeps hs).1
  refine (hl.readInto hv hc pi addr n).tail htail.frame htail.bytes htail.inCall (fun pj hs => ?_)
    (fun pj hs => ?_) fun s c hpipe hs => ?_
  · cases hself _ hs
  · cases hself _ hs
    rw [htail.a2, htail.inCall, readInto_inCall, htail.frame.stream_eq, hframe.stream_eq,
      hframe.curr, readInto_mailof hv hc, hn, update_self]
  · have hslot : SlotEases (fun _ => False) k (k.readInto pi addr n) s := by
      have hsame : SlotEases (fun _ => False) k (k.drainInto pi addr n) s :=
        .same (by rw [drainInto_proc])
      exact hsame.trans (pullWriter_slot _ pi s)
    rw [hframe.img, hframe.img, hframe.curr]
    exact (hv.img_ne hc (hslot.sleepsOn hs) (by rintro d rfl; exact hpipe)).symm

/-- The parked writer that a read finds, when the read is over. -/
theorem read_served (hl : k.Ledger) (hv : k.Vfork) (hc : k.Ready k.curr)
    (hws : k.kfindSleeper (.nwrite pi) = some ws) (h : k.Waiting ws pi c) (addr n : Word) :
    Served k (ioTail (k.piperead pi addr n)) ws pi c := by
  have hproc := drainInto_proc k pi addr n
  have hs := kfindSleeper_some hws
  have hsc : ws ≠ k.curr := by
    rintro rfl
    exact hc.not_sleepsOn hs
  have hne := (hv.img_ne hc hs (by simp)).symm
  -- the drain leaves the writer as it was
  have hst : Stays k (k.drainInto pi addr n) ws (.nwrite pi) := by
    refine (drainInto_frame k pi addr n).keeps ?_ hsc hne
    rwa [SleepsOn, hproc]
  have hcalls : (k.drainInto pi addr n).calls c = k.calls c :=
    congrFun (drainInto_calls k pi addr n) c
  have hserved := pullWriter_served (hl.books.drainInto pi addr n)
    ((kfindSleeper_congr hproc _).trans hws)
    (h.stays hst hcalls ((drainInto_frame k pi addr n).stream_eq pi))
  -- and so does the caller's answer
  have hframe := readInto_frame k pi addr n
  have htail := read_tail k pi addr n
  have hsc' : ws ≠ (k.readInto pi addr n).curr := hframe.curr ▸ hsc
  have hne' : (k.readInto pi addr n).img ws ≠ (k.readInto pi addr n).img
      (k.readInto pi addr n).curr := by
    rwa [hframe.img, hframe.img, hframe.curr]
  have hplace := htail.frame.others ws hsc' (by simp)
  obtain ⟨hstate, hchan, himg⟩ := place_eq_iff.mp hplace
  rw [← Kernel.readInto] at hserved
  cases hserved with
  | more hsl hw t hcall =>
    have hsl' : (ioTail (k.piperead pi addr n)).SleepsOn ws (.nwrite pi) :=
      ⟨hstate.trans hsl.1, hchan.trans hsl.2⟩
    refine .more hsl' (hw.stays (htail.frame.keeps hsl' hsc' hne') (by rw [htail.bytes.calls])
      (htail.frame.stream_eq pi)) t ?_
    rw [htail.bytes.calls, hcall, hcalls]
  | done hr hv' hm hcall =>
    have hsame := htail.frame.image _ hne' (by simp)
    rw [hst.mail] at hv' hm
    refine .done ?_ ?_ ?_ ?_
    · simpa [Ready, hstate] using hr
    · rw [← hv', (hsame.mailof himg).2.2]
    · rw [← hm, (hsame.mailof himg).1]
    · rw [htail.bytes.calls, hcall, hcalls]

/-- A write call is on record: it gave `d` bytes, and went to sleep then or not. -/
structure Recorded (k : Kernel) (pi : PipeId) (addr n : Word) (k' : Kernel) (d : Nat)
    (p : Option Nat) : Prop where
  le : d ≤ n.toInt.toNat
  calls : k'.calls = update k.calls k.ncalls
    { stream := (k.pipes pi).stream
      buf := k.bytesAt k.curr addr n.toNat
      taken := d
      parkedAt := p }
  ncalls : k'.ncalls = k.ncalls + 1
  inCall : k'.inCall = update k.inCall k.curr (some (.write k.ncalls))
  streams : k.Streams → k'.Streams
  books : k.Streams → k.Books → k'.Books

theorem Written.recorded {m : Kernel} (h : Written k pi addr n m d) (o : Outcome) :
    Recorded k pi addr n (m.sysTail o) d none := by
  have ht := sysTail_frame m o
  exact ⟨h.le, ht.calls.trans h.calls, ht.ncalls.trans h.ncalls, ht.inCall.trans h.inCall,
    fun hs => (h.streams hs).same ht.toSameBytes,
    fun hs hb => (h.books hs hb).same ht.toSameBytes⟩

theorem Written.parked {m : Kernel} (h : Written k pi addr n m d) (o : Outcome) :
    Recorded k pi addr n ((m.parkWriter pi addr n d).sysTail o) d (some d) := by
  have ht := sysTail_frame (m.parkWriter pi addr n d) o
  have hid : m.callOf m.curr = k.ncalls := by
    rw [callOf, h.inCall, h.curr, update_self]
  have hcalls : (m.parkWriter pi addr n d).calls = update m.calls k.ncalls
      { m.calls k.ncalls with parkedAt := some d } := by
    rw [← hid]
    rfl
  refine ⟨h.le, ?_, ht.ncalls.trans h.ncalls, ht.inCall.trans h.inCall, fun hs => ?_,
    fun hs hb => ?_⟩
  · rw [ht.calls, hcalls, h.calls]
    simp
  · have hs' : (m.parkWriter pi addr n d).Streams := (h.streams hs).congr rfl rfl rfl
    exact hs'.same ht.toSameBytes
  · suffices hb' : (m.parkWriter pi addr n d).Books from hb'.same ht.toSameBytes
    refine (h.books hs hb).congr (fun _ _ => rfl) rfl (le_refl _) fun c => ?_
    rw [hcalls]
    by_cases hc : c = k.ncalls
    · subst hc
      simp
    · simp [hc]

theorem write_recorded (hv : k.Vfork) (hc : k.Ready k.curr) (pi : PipeId)
    (addr n : Word) : ∃ d p, Recorded k pi addr n (ioTail (k.pipewrite pi addr n)) d p := by
  have hout := write_outcome k pi addr n
  have hw := writeInto_written hv hc pi addr n
  generalize ioTail (k.pipewrite pi addr n) = k' at hout
  cases hout with
  | refused => exact ⟨_, _, (openCall_written k pi addr n).recorded _⟩
  | done => exact ⟨_, _, hw.recorded _⟩
  | parks => exact ⟨_, _, hw.parked _⟩

/-- A writer that goes to sleep waits with the rest of its call. -/
theorem Written.waiting {m : Kernel} (h : Written k pi addr n m d)
    (hst : (m.pipes pi).stream = (k.pipes pi).stream) :
    ((m.parkWriter pi addr n d).sysTail (.block blocked)).Waiting k.curr pi k.ncalls := by
  have hrec := h.parked (.block blocked)
  have hframe : IoFrame m ((m.parkWriter pi addr n d).sysTail (.block blocked)) pi none :=
    (parkWriter_frame m pi addr n d).trans (sysTail_ioFrame _ pi _)
  have hmail : ((m.parkWriter pi addr n d).sysTail (.block blocked)).mailof k.curr =
      { m.mailof m.curr with
        a1 := addr + BitVec.ofNat 32 d, a2 := n - BitVec.ofNat 32 d, ret := blocked, done := 1 } := by
    rw [sysTail, ← h.curr]
    simp [parkWriter, sleep, setMail, setProc, setret, swtch, mailof, img]
  have hpeek : ((m.parkWriter pi addr n d).sysTail (.block blocked)).peek k.curr =
      k.peek k.curr := by
    have hmem : ((m.parkWriter pi addr n d).sysTail (.block blocked)).mem = m.mem := by
      rw [sysTail]
      split <;> rfl
    refine Eq.trans ?_ h.peek
    funext a
    exact congrArg₂ (fun mem j => mem j a) hmem (hframe.img k.curr)
  have hle : d ≤ n.toNat := le_trans h.le (toInt_toNat_le n)
  generalize (m.parkWriter pi addr n d).sysTail (.block blocked) = k' at *
  have hcall : k'.calls k.ncalls =
      { stream := (k.pipes pi).stream
        buf := k.bytesAt k.curr addr n.toNat
        taken := d
        parkedAt := some d } := by
    rw [hrec.calls, update_self]
  have hin : k'.inCall k.curr = some (.write k.ncalls) := by
    rw [hrec.inCall, update_self]
  refine ⟨hin, ?_, ?_, ?_, d, ?_⟩ <;> rw [hcall]
  · exact (hframe.stream.trans hst).symm
  · rw [hmail, length_bytesAt]
    have hd : (BitVec.ofNat 32 d).toNat = d := by
      rw [toNat_ofNat, mod_eq_of_lt (lt_of_le_of_lt hle n.isLt)]
    rw [toNat_sub_of_le (by rw [le_def, hd]; exact hle), hd]
  · rw [hmail, length_bytesAt]
    rw [bytesAt_congr hpeek, ← bytesAt_drop, Nat.add_sub_cancel' hle]
  · exact ⟨rfl, le_refl _, by simp [hmail]⟩

section

variable {rs : Slot} (hv : k.Vfork) (hc : k.Ready k.curr) (hrs : k.kfindSleeper (.nread pi) = some rs)
include hv hc hrs

/-- The parked reader that a write finds gets its answer. -/
theorem deposit_serves (addr n : Word) :
    (k.deposit pi addr n).1.Ready rs ∧
      (k.deposit pi addr n).1.r0 (k.img rs) = BitVec.ofNat 32 (k.deposited rs n) := by
  rw [deposit_of_some hrs (hv.img_ne hc (kfindSleeper_some hrs) (by simp))]
  have himg : (k.depositInto pi rs addr n).img rs = k.img rs :=
    congrArg (·.img rs) (handOver_moved ..).still
  constructor
  · exact .inl (by simp [kcomplete, wake, setProc])
  · simp [kcomplete, wake, setret, setProc, himg]

theorem write_serves (hr : (k.pipes pi).readopen = true)
    (addr n : Word) : (ioTail (k.pipewrite pi addr n)).Ready rs ∧
      (ioTail (k.pipewrite pi addr n)).r0 (k.img rs) = BitVec.ofNat 32 (k.deposited rs n) := by
  have hv1 : (k.openCall pi addr n).Vfork := hv.of_procs rfl rfl
  have hrs1 : (k.openCall pi addr n).kfindSleeper (.nread pi) = some rs := by
    rwa [kfindSleeper_congr (show (k.openCall pi addr n).proc = k.proc from rfl)]
  obtain ⟨hready, hval⟩ := deposit_serves hv1 hc hrs1 addr n
  have hdep := deposit_frame hv1 hc pi addr n
  have hne := hv.img_ne hc (kfindSleeper_some hrs) (by simp)
  have hsc : rs ≠ k.curr := fun h => hne (by rw [h])
  have hout := write_outcome k pi addr n
  -- what follows the deposit touches neither the reader's slot nor its image
  have hrest : ∀ k', IoFrame ((k.openCall pi addr n).deposit pi addr n).1 k' pi none →
      k'.Ready rs ∧ k'.r0 (k.img rs) = BitVec.ofNat 32 (k.deposited rs n) := by
    intro k' hf
    have hcurr : ((k.openCall pi addr n).deposit pi addr n).1.curr = k.curr := hdep.curr
    have himg : ((k.openCall pi addr n).deposit pi addr n).1.img k.curr = k.img k.curr :=
      hdep.img k.curr
    obtain ⟨hst, _, _⟩ := place_eq_iff.mp (hf.others rs (hcurr ▸ hsc) (by simp))
    refine ⟨by simpa [Ready, hst] using hready, ?_⟩
    rw [(hf.image (k.img rs) (by rw [hcurr, himg]; exact hne.symm) (by simp)).2.1]
    exact hval
  have hfill : ∀ r : Kernel × Nat, IoFrame r.1 (r.1.fillInto pi addr n r.2) pi none :=
    fun r => putAll_frame ..
  generalize ioTail (k.pipewrite pi addr n) = k' at hout
  cases hout with
  | refused h => simp [h] at hr
  | done => exact hrest _ ((hfill _).trans (sysTail_ioFrame ..))
  | parks => exact hrest _ (((hfill _).trans (parkWriter_frame ..)).trans (sysTail_ioFrame ..))

end

/-- A refused write serves nobody. -/
theorem write_frame_of_shut (h : (k.pipes pi).readopen = false)
    (addr n : Word) : IoFrame k (ioTail (k.pipewrite pi addr n)) pi none := by
  rw [pipewrite_of_shut h]
  exact (openCall_frame k pi addr n).trans (sysTail_ioFrame ..)

/-- Whoever is parked after a write, its caller apart, has been so all along. -/
theorem write_stays (hv : k.Vfork) (hc : k.Ready k.curr) {s : Slot} {ch : Chan}
    (hs : (ioTail (k.pipewrite pi addr n)).SleepsOn s ch) (hpipe : Chan.IsPipe ch)
    (hsc : s ≠ k.curr) : Stays k (ioTail (k.pipewrite pi addr n)) s ch := by
  by_cases hq : k.kfindSleeper (.nread pi) = some s
  · cases hr : (k.pipes pi).readopen with
    | true => exact absurd hs (write_serves hv hc hq hr addr n).1.not_sleepsOn
    | false =>
      have hs0 := ((write_acts hv hc pi addr n).others s hsc).sleepsOn hs
      exact (write_frame_of_shut hr addr n).keeps hs hsc
        (hv.img_ne hc hs0 (by rintro d rfl; exact hpipe)).symm
  · exact (write_frame hv hc pi addr n).stays hv hc
      (fun t ht => kfindSleeper_watched ht trivial) hs hpipe hsc hq

theorem Ledger.write (hl : k.Ledger) (hv : k.Vfork) (hc : k.Ready k.curr) (pi : PipeId)
    (addr n : Word) : (ioTail (k.pipewrite pi addr n)).Ledger := by
  obtain ⟨d, p, hrec⟩ := write_recorded hv hc pi addr n
  have hframe := write_frame hv hc pi addr n
  have hcase : ∀ s c, (ioTail (k.pipewrite pi addr n)).inCall s = some (.write c) →
      (s = k.curr ∧ c = k.ncalls) ∨ (s ≠ k.curr ∧ k.inCall s = some (.write c)) := by
    intro s c h
    rw [hrec.inCall] at h
    by_cases hs : s = k.curr
    · subst hs
      rw [update_self] at h
      simp only [Option.some.injEq, Call.write.injEq] at h
      exact .inl ⟨rfl, h.symm⟩
    · rw [update_of_ne hs] at h
      exact .inr ⟨hs, h⟩
  refine ⟨hrec.streams hl.streams, hrec.books hl.streams hl.books, fun s c hs => ?_,
    fun s t c hs ht => ?_, fun s pj hs => ?_, fun s pj hs => ?_⟩
  · rw [hrec.ncalls]
    rcases hcase s c hs with ⟨_, rfl⟩ | ⟨_, h⟩
    · exact lt_succ_self _
    · exact lt_succ_of_lt (hl.callers.lt s c h)
  · rcases hcase s c hs with ⟨hsc, hcn⟩ | ⟨_, h⟩ <;>
      rcases hcase t c ht with ⟨htc, hcn'⟩ | ⟨_, h'⟩
    · rw [hsc, htc]
    · exact absurd (hl.callers.lt t c h') (by omega)
    · exact absurd (hl.callers.lt s c h) (by omega)
    · exact hl.callers.inj s t c h h'
  · by_cases hsc : s = k.curr
    · subst hsc
      obtain ⟨hch, hd, hr⟩ := write_sleeps hv hc hs
      cases Chan.nwrite.inj hch
      have hw := writeInto_written hv hc pi addr n
      have hst := (writeInto_frame hv hc pi addr n).stream
      have hout := write_outcome k pi addr n
      generalize ioTail (k.pipewrite pi addr n) = k' at hout
      cases hout with
      | refused h => simp [h] at hr
      | done _ h => exact absurd h hd
      | parks => exact ⟨_, hw.waiting hst⟩
    · have hst := write_stays hv hc hs trivial hsc
      obtain ⟨c, hwait⟩ := hl.callers.waiting s pj hst.sleeps
      refine ⟨c, hwait.stays hst ?_ (hframe.stream_eq pj)⟩
      have := hl.callers.lt s c hwait.inCall
      rw [hrec.calls, update_of_ne (by omega)]
  · have hsc : s ≠ k.curr := by
      rintro rfl
      cases (write_sleeps hv hc hs).1
    have hst := write_stays hv hc hs trivial hsc
    rw [hst.inCall, hst.mail, hframe.stream_eq]
    exact hl.callers.reading s pj hst.sleeps

theorem Ledger.act (hl : k.Ledger) (hp : k.Ports) (hv : k.Vfork)
    (h : PipeAct P C k k') : k'.Ledger := by
  cases h with
  | quiet h => exact hl.quiet h
  | opens hu h => exact (hl.openPipe hp hu).quiet h
  | read hk _ _ => exact hl.read hv hk.ready _ _
  | write hk _ _ => exact hl.write hv hk.ready _ _ _

/-! ## Runs -/

/-- What holds of the pipes as long as no signal hits a suspended parent. -/
structure Piping (k : Kernel) : Prop where
  vfork : k.Vfork
  ports : k.Ports
  ledger : k.Ledger

theorem Piping.pipeAct (hp : k.Piping) (h : Atom True P C k k') : PipeAct P C k k' :=
  h.pipeAct hp.vfork hp.ports.settled

theorem Piping.atom {k k' : Kernel} (hp : k.Piping) (h : Atom True P C k k') : k'.Piping where
  vfork := (h.vfork hp.vfork).1
  ports := hp.ports.act hp.vfork (hp.pipeAct h)
  ledger := hp.ledger.act hp.ports hp.vfork (hp.pipeAct h)

/-- What every action preserves next to `Piping`, a trail preserves. -/
theorem Piping.trail (hp : k.Piping)
    (hJ : ∀ k k', k.Piping → PipeAct P C k k' → J k → J k') (h : Trail True P C k k') (hj : J k) :
    k'.Piping ∧ J k' := by
  induction h with
  | refl => exact ⟨hp, hj⟩
  | tail _ ha ih =>
    obtain ⟨hp', hj'⟩ := ih
    exact ⟨hp'.atom ha, hJ _ _ hp' (hp'.pipeAct ha) hj'⟩

theorem Piping.boot (c : Config) : c.boot.Piping := by
  have hns : ∀ s ch, ¬ c.boot.SleepsOn s ch := fun s ch h => c.boot_not_sleeping s h.1
  refine ⟨.boot c, ⟨?_, ?_, ?_, ?_⟩, ⟨?_, ?_, ?_, ?_⟩, ⟨?_, ?_, ?_, ?_⟩, ?_, ?_, ?_, ?_⟩
  · exact fun s x hx => by simp [Config.boot] at hx
  · exact fun pi h => by simp [Config.boot] at h
  · exact fun s pi h => absurd h (hns s _)
  · exact fun s pi h => absurd h (hns s _)
  · exact fun pi => pi.isLt
  · exact fun pi pj h => Fin.ext h
  · exact fun st _ => rfl
  · exact fun pi => by simp [Config.boot, Pipe.count]
  · exact fun st c' => by simp [Config.boot, takesOf]
  · exact fun c' => le_refl _
  · exact fun c' _ => rfl
  · exact fun c' h => absurd h (not_lt_zero c')
  · exact fun s c' h => by simp [Config.boot] at h
  · exact fun s t c' h => by simp [Config.boot] at h
  · exact fun s pi h => absurd h (hns s _)
  · exact fun s pi h => absurd h (hns s _)

theorem Reachable.piping {ok : Kernel → Event → Prop}
    (hcalm : ∀ k e, ok k e → k.Calm e) (hC : ∀ k e, ok k e → k.OnCall C e)
    (h0 : ∀ c : Config, J c.boot)
    (hJ : ∀ k k', k.Piping → PipeAct (fun _ => True) C k k' → J k → J k')
    (h : Reachable ok k) : k.Turn ∧ k.Piping ∧ J k := by
  refine h.invariant (I := fun k => k.Piping ∧ J k) (fun c => ⟨.boot c, h0 c⟩) ?_
  rintro k e k' ht hok hs ⟨hp, hj⟩
  refine hp.trail hJ (step_trail ht (fun _ => hcalm k e hok) (fun a he => ?_) hs) hj
  subst he
  exact hC k _ hok

end Kernel

end DmaCpu.Xv6
