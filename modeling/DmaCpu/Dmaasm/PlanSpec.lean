-- SUMMARY: What the records of the planner do to the banks: every block runs on its bank with its count.
import DmaCpu.Dmaasm.Plan

/-!
# The planner is right about the banks

The banks as a machine: one of them is selected, each has a count, and a record runs
on the selected bank as many times as its count says. The planner's state agrees
with that machine after every block, so each block has the bank and the count it
asks for, and every instruction ends where it began.
-/
namespace DmaCpu.Dmaasm

open List

/-! ## The banks -/

structure Banks where
  bank : Bank
  count : Bank → Word

/-- A record that the planner puts in front of a block, or behind the last one. -/
def Prim.isSetup : Prim → Bool
  | switch _ | count _ _ => true
  | _ => false

/-- A record, with the banks as it found them. -/
structure Event where
  prim : Prim
  on : Banks

namespace Event

/-- The bank that ran it. -/
def bank (e : Event) : Bank := e.on.bank

/-- The number of its transfers. -/
def count (e : Event) : Word := e.on.count e.on.bank

/-- Switch and count records run on plain or on sniff, and those that count on plain. -/
structure Proper (e : Event) : Prop where
  setup : e.prim.isSetup = true → e.bank = .plain ∨ e.bank = .sniff
  counts : ∀ b k, e.prim = .count b k → e.bank = .plain

theorem proper_of_not_isSetup {e : Event} (h : e.prim.isSetup = false) : e.Proper := by
  refine ⟨fun hsetup => absurd hsetup (by rw [h]; decide), fun b k hprim => ?_⟩
  rw [hprim] at h
  cases h

end Event

namespace Banks

/-- Plain is selected and all counts are 1. -/
def canonical : Banks := ⟨.plain, fun _ => 1⟩

/-- What a transfer of the record does. -/
def put (m : Banks) : Prim → Banks
  | .switch b => { m with bank := b }
  | .count b k => { m with count := Function.update m.count b k }
  | _ => m

/-- One record on the selected bank. An auto-return bank gives way to plain. -/
def exec (m : Banks) (p : Prim) : Banks :=
  let m' := if m.count m.bank = 0 then m else m.put p
  if m.bank.autoReturn then { m' with bank := .plain } else m'

def run (m : Banks) : List Prim → List Event × Banks
  | [] => ([], m)
  | p :: ps =>
    let (es, m') := (m.exec p).run ps
    (⟨p, m⟩ :: es, m')

theorem run_append (m : Banks) (ps qs : List Prim) :
    m.run (ps ++ qs) = ((m.run ps).1 ++ ((m.run ps).2.run qs).1, ((m.run ps).2.run qs).2) := by
  induction ps generalizing m with
  | nil => rfl
  | cons p ps ih => simp only [cons_append, run, ih]

end Banks

/-! ## Requests -/

/-- A block to be planned. If its count is patched at run time then `patched` is what
    it is patched to. -/
structure Request where
  bank : Bank
  count : Word
  srcSniff : Bool
  dstPc : Bool
  dyn : Bool
  patched : Word
  /-- A bank that chains to fetch is not patched to 0, from where no record would bring
      it back. -/
  runs : dyn = true → bank.autoReturn = false → patched ≠ 0

namespace Request

def shape (r : Request) : Cshape :=
  { bank := r.bank, count := r.count, srcSniff := r.srcSniff, dstPc := r.dstPc, dyn := r.dyn }

/-- The number of transfers that are asked for, where the planner takes 0 for 1. -/
def times (r : Request) : Word :=
  if r.dyn then r.patched else if r.count = 0 then 1 else r.count

/-- The registers as the program has them when the block comes up. -/
def patch (r : Request) (m : Banks) : Banks :=
  if r.dyn then { m with count := Function.update m.count r.bank r.patched } else m

/-- The block runs on its bank as often as is asked for. -/
structure Direct (r : Request) (e : Event) : Prop where
  prim : e.prim = .record
  bank : e.bank = r.bank
  count : e.count = r.times

/-- A read of the accumulator that runs on sniff, once. -/
structure Deferred (r : Request) (e : Event) : Prop where
  src : r.srcSniff = true
  plain : r.bank = .plain
  times : r.times = 1
  bank : e.bank = .sniff
  count : e.count = 1
  prim : e.prim = if r.dstPc then .stageRead else .record

/-- The events of a block: it runs directly, or it is deferred, and then goes on to
    the program counter from plain if that is its destination. -/
def Served (r : Request) (es : List Event) : Prop :=
  (∃ pre e, es = pre ++ [e] ∧ r.Direct e ∧ ∀ e ∈ pre, e.prim.isSetup = true) ∨
    ∃ e post, es = e :: post ∧ r.Deferred e ∧
      if r.dstPc then ∃ e₁ e₂, post = [e₁, e₂] ∧ e₁.prim = .switch .plain ∧ e₂.prim = .stagePush ∧
        e₂.bank = .plain else post = []

end Request

/-- The planner knows the selected bank and every count that is not dirty. -/
structure Agrees (st : Cstate) (m : Banks) : Prop where
  bank : m.bank = st.bank
  stays : st.bank.autoReturn = false
  count : ∀ b, st.dirty b = false → m.count b = st.cnt b
  pos : ∀ b, b.autoReturn = false → m.count b ≠ 0

theorem autoReturn_eq_false {b : Bank} : b.autoReturn = false ↔ b = .plain ∨ b = .sniff := by
  cases b <;> decide

theorem agrees_init : Agrees .init .canonical :=
  ⟨rfl, rfl, fun _ _ => rfl, fun _ _ => show (1 : Word) ≠ 0 by decide⟩

section

variable {st : Cstate} {m : Banks} {b : Bank} {k : Word} {r : Request}

section

variable (h : Agrees st m)
include h

theorem Agrees.running : m.count m.bank ≠ 0 :=
  h.pos _ (h.bank ▸ h.stays)

theorem Agrees.exec (p : Prim) : m.exec p = m.put p := by
  unfold Banks.exec
  rw [if_neg h.running, h.bank, h.stays]
  rfl

theorem Agrees.proper_switch (b : Bank) : Event.Proper ⟨.switch b, m⟩ := by
  have hbank := autoReturn_eq_false.mp h.stays
  rw [← h.bank] at hbank
  exact ⟨fun _ => hbank, nofun⟩

theorem Agrees.proper_count (hplain : st.bank = .plain) (b : Bank) (k : Word) :
    Event.Proper ⟨.count b k, m⟩ :=
  have hbank := h.bank.trans hplain
  ⟨fun _ => .inl hbank, fun _ _ _ => hbank⟩

/-- Changing the bank, where the new one may be an auto-return bank. -/
theorem Agrees.switchTo (b : Bank) :
    ∃ es m', m.run (st.switchTo b).1 = (es, m') ∧ m'.bank = b ∧ m'.count = m.count ∧
      (st.switchTo b).2 = { st with bank := b } ∧ (∀ e ∈ es, e.Proper ∧ e.prim.isSetup = true) := by
  unfold Cstate.switchTo
  split
  next heq => exact ⟨[], m, rfl, h.bank.trans heq, rfl, by rw [← heq], nofun⟩
  next =>
    refine ⟨[⟨.switch b, m⟩], { m with bank := b }, ?_, rfl, rfl, rfl, ?_⟩
    · simp [Banks.run, h.exec, Banks.put]
    · exact forall_mem_singleton.mpr ⟨h.proper_switch b, rfl⟩

theorem Agrees.plain {m' : Banks} (hbank : m'.bank = .plain)
    (hcount : m'.count = m.count) : Agrees { st with bank := .plain } m' :=
  ⟨hbank, rfl, fun b hb => hcount ▸ h.count b hb, fun b hb => hcount ▸ h.pos b hb⟩

/-- A count record, on the plain bank. -/
theorem Agrees.setCnt (b : Bank) (hk : k ≠ 0) :
    Agrees (st.setCnt b k) (m.put (.count b k)) := by
  refine ⟨h.bank, h.stays, fun c hc => ?_, fun c hc => ?_⟩
  · simp only [Banks.put, Cstate.setCnt, Function.update_apply] at hc ⊢
    split
    · rfl
    next hne =>
      rw [if_neg hne] at hc
      exact h.count c hc
  · simp only [Banks.put, Function.update_apply]
    split
    · exact hk
    · exact h.pos c hc

theorem Agrees.reload (b : Bank) (hk : k ≠ 0) :
    ∃ es m', m.run (st.reload b k).1 = (es, m') ∧ Agrees (st.reload b k).2 m' ∧
      m'.count b = k ∧ (∀ e ∈ es, e.Proper ∧ e.prim.isSetup = true) := by
  obtain ⟨es, m₁, hrun, hbank, hcount, hst, hes⟩ := h.switchTo .plain
  have h₁ : Agrees (st.switchTo .plain).2 m₁ := hst ▸ h.plain hbank hcount
  refine ⟨es ++ [⟨.count b k, m₁⟩], m₁.put (.count b k), ?_, h₁.setCnt b hk,
    Function.update_self .., ?_⟩
  · simp [Cstate.reload, Banks.run_append, hrun, Banks.run, h₁.exec]
  · exact forall_mem_append.mpr ⟨hes, forall_mem_singleton.mpr ⟨h₁.proper_count (by rw [hst]) b k, rfl⟩⟩

end

/-- The record of a block, whatever its bank. -/
theorem run_record : m.run [.record] =
    ([⟨.record, m⟩], if m.bank.autoReturn then { m with bank := .plain } else m) := by
  simp [Banks.run, Banks.exec, Banks.put]

theorem after_shape : st.after r.shape =
    { bank := if r.bank.autoReturn then .plain else st.bank
      cnt := st.cnt
      dirty := if r.dyn then Function.update st.dirty r.bank true else st.dirty } := by
  unfold Cstate.after Request.shape
  cases r.dyn <;> cases r.bank.autoReturn <;> simp

/-- Once the count is what it should be, the bank is selected and runs the block. -/
theorem Agrees.record (h : Agrees st m) (r : Request) :
    ∃ es m', m.run ((st.switchTo r.bank).1 ++ [.record]) = (es, m') ∧
      Agrees ((st.switchTo r.bank).2.after r.shape) m' ∧ (∀ e ∈ es, e.Proper) ∧ m'.count = m.count ∧
      ∃ pre, es = pre ++ [⟨.record, ⟨r.bank, m.count⟩⟩] ∧ ∀ e ∈ pre, e.prim.isSetup = true := by
  obtain ⟨es, m₁, hrun, hbank, hcount, hst, hes⟩ := h.switchTo r.bank
  have hm₁ : m₁ = ⟨r.bank, m.count⟩ := by rw [← hbank, ← hcount]
  refine ⟨es ++ [⟨.record, ⟨r.bank, m.count⟩⟩],
    if r.bank.autoReturn then { m₁ with bank := .plain } else m₁, ?_, ?_, ?_, ?_, ?_⟩
  · rw [Banks.run_append, hrun, run_record, hm₁]
  · have hknown : ∀ b, (if r.dyn then Function.update st.dirty r.bank true else st.dirty) b = false →
        m₁.count b = st.cnt b := by
      intro b hb
      rw [hcount]
      refine h.count b ?_
      split at hb
      · rw [Function.update_apply] at hb
        split at hb
        · cases hb
        · exact hb
      · exact hb
    have hpos : ∀ b, b.autoReturn = false → m₁.count b ≠ 0 := fun b hb => hcount ▸ h.pos b hb
    rw [after_shape, hst]
    cases hauto : r.bank.autoReturn
    · exact ⟨hbank, hauto, hknown, hpos⟩
    · exact ⟨rfl, rfl, hknown, hpos⟩
  · exact forall_mem_append.mpr ⟨fun e he => (hes e he).1, forall_mem_singleton.mpr (Event.proper_of_not_isSetup rfl)⟩
  · rw [← hcount]
    split <;> rfl
  · exact ⟨es, rfl, fun e he => (hes e he).2⟩

/-- A read of the accumulator that stays on sniff. -/
theorem Agrees.deferred (h : Agrees st m) (hd : st.defers r.shape r.times = true) :
    st.bank = .sniff ∧ m.count .sniff = 1 ∧ r.srcSniff = true ∧ r.bank = .plain ∧ r.times = 1 ∧
      r.dyn = false := by
  simp only [Cstate.defers, Request.shape, Bool.and_eq_true, beq_iff_eq, Bool.not_eq_true'] at hd
  obtain ⟨⟨⟨⟨⟨⟨hsrc, hbank⟩, hplain⟩, hone⟩, hdyn⟩, hcnt⟩, hdirty⟩ := hd
  exact ⟨hbank, (h.count _ hdirty).trans hcnt, hsrc, hplain, hone, hdyn⟩

theorem times_ne_zero (hdyn : r.dyn = false) : r.times ≠ 0 := by
  unfold Request.times
  rw [hdyn]
  split
  next => contradiction
  next =>
    split
    · decide
    · assumption

/-- The count that the planner works with. -/
theorem times_eq (hdyn : r.dyn = false) : r.times = if r.count = 0 then 1 else r.count := by
  simp [Request.times, hdyn]

theorem plan_deferred (hdyn : r.dyn = false) (hd : st.defers r.shape r.times = true) :
    st.plan r.shape = if r.dstPc then (.stageRead :: (st.switchTo .plain).1 ++ [.stagePush],
      (st.switchTo .plain).2) else ([.record], st) := by
  rw [times_eq hdyn] at hd
  have hd' : st.defers r.shape (if r.shape.count = 0 then 1 else r.shape.count) = true := hd
  unfold Cstate.plan
  simp only [if_neg (show ¬r.shape.halt = true from Bool.false_ne_true), hd', if_true]
  rfl

theorem plan_reload (hdyn : r.dyn = false) (hd : st.defers r.shape r.times = false)
    (hdiff : st.differs r.bank r.times = true) :
    st.plan r.shape = ((st.reload r.bank r.times).1 ++ (((st.reload r.bank r.times).2.switchTo r.bank).1 ++ [.record]),
      ((st.reload r.bank r.times).2.switchTo r.bank).2.after r.shape) := by
  rw [times_eq hdyn] at hd hdiff ⊢
  simp only [Cstate.plan, Request.shape, hdyn] at hd ⊢
  simp only [hd, hdiff, Bool.false_eq_true, if_false, Bool.not_false, beq_self_eq_true, Bool.and_self,
    if_true, append_assoc]

/-- No count record is needed. -/
theorem plan_known (hd : r.dyn = true ∨ st.defers r.shape r.times = false ∧ st.differs r.bank r.times = false) :
    st.plan r.shape = ((st.switchTo r.bank).1 ++ [.record], (st.switchTo r.bank).2.after r.shape) := by
  rcases hdyn : r.dyn with _ | _
  · rw [hdyn] at hd
    obtain ⟨hdef, hdiff⟩ := hd.resolve_left nofun
    rw [times_eq hdyn] at hdef hdiff
    simp only [Cstate.plan, Request.shape, hdyn] at hdef ⊢
    simp only [hdef, hdiff, Bool.false_eq_true, if_false, Bool.not_false, beq_self_eq_true, Bool.and_self,
      Bool.and_false, nil_append]
  · simp [Cstate.plan, Request.shape, hdyn, Cstate.defers]

/-- The patched count is not the planner's, nor does it matter to it. -/
theorem Agrees.patch (h : Agrees st m) (hdyn : r.dyn = true) :
    Agrees { st with dirty := Function.update st.dirty r.bank true } (r.patch m) := by
  have hpatch : r.patch m = { m with count := Function.update m.count r.bank r.patched } := by
    simp [Request.patch, hdyn]
  rw [hpatch]
  refine ⟨h.bank, h.stays, fun b hb => ?_, fun b hb => ?_⟩
  · simp only [Function.update_apply] at hb ⊢
    split
    next heq => rw [if_pos heq] at hb; cases hb
    next hne =>
      rw [if_neg hne] at hb
      exact h.count b hb
  · simp only [Function.update_apply]
    split
    next heq => exact r.runs hdyn (heq ▸ hb)
    next => exact h.pos b hb

/-- The last record of a block finds the counts as the block leaves them. One that goes
    to the program counter runs on plain. -/
def Request.Ends (r : Request) (es : List Event) (m : Banks) : Prop :=
  ∃ pre e, es = pre ++ [e] ∧ e.on.count = m.count ∧ (r.bank = .plain → r.dstPc = true → e.bank = .plain)

/-- A block that runs directly, after records that are not blocks. -/
theorem Request.served_direct {pre : List Event} {count : Bank → Word} {m' : Banks}
    (htimes : count r.bank = r.times) (hcount : m'.count = count) (hpre : ∀ e ∈ pre, e.prim.isSetup = true) :
    r.Served (pre ++ [⟨.record, ⟨r.bank, count⟩⟩]) ∧ r.Ends (pre ++ [⟨.record, ⟨r.bank, count⟩⟩]) m' :=
  ⟨.inl ⟨pre, _, rfl, ⟨rfl, rfl, htimes⟩, hpre⟩, pre, _, rfl, hcount.symm, fun h _ => h⟩

/-- The planner keeps step with the banks over one block. -/
theorem Agrees.plan (h : Agrees st m) (r : Request) :
    ∃ es m', (r.patch m).run (st.plan r.shape).1 = (es, m') ∧ Agrees (st.plan r.shape).2 m' ∧
      (∀ e ∈ es, e.Proper) ∧ r.Served es ∧ r.Ends es m' := by
  cases hdyn : r.dyn with
  | true =>
    have htimes : (r.patch m).count r.bank = r.times := by
      simp [Request.patch, Request.times, hdyn]
    obtain ⟨es, m', hrun, hagrees, hes, hcount, pre, rfl, hpre⟩ := (h.patch hdyn).record r
    have hswitch : ({ st with dirty := Function.update st.dirty r.bank true } : Cstate).switchTo r.bank =
        ((st.switchTo r.bank).1, { (st.switchTo r.bank).2 with dirty := Function.update st.dirty r.bank true }) := by
      unfold Cstate.switchTo
      split <;> rfl
    have hdirty : (st.switchTo r.bank).2.dirty = st.dirty := by
      unfold Cstate.switchTo
      split <;> rfl
    rw [hswitch] at hrun hagrees
    rw [plan_known (.inl hdyn)]
    refine ⟨_, m', hrun, ?_, hes, Request.served_direct htimes hcount hpre⟩
    rw [after_shape] at hagrees ⊢
    simpa only [hdyn, if_true, Function.update_idem, hdirty] using hagrees
  | false =>
    have hpatch : r.patch m = m := by simp only [Request.patch, hdyn, Bool.false_eq_true, if_false]
    rw [hpatch]
    cases hdef : st.defers r.shape r.times with
    | true =>
      obtain ⟨hbank, hone, hsrc, hplain, htimes, _⟩ := h.deferred hdef
      have hsniff : m.bank = .sniff := h.bank.trans hbank
      have hcount : ∀ p, Event.count ⟨p, m⟩ = 1 := fun p => by rw [Event.count, hsniff, hone]
      rw [plan_deferred hdyn hdef]
      cases hpc : r.dstPc with
      | false =>
        refine ⟨[⟨.record, m⟩], m, ?_, h, forall_mem_singleton.mpr (Event.proper_of_not_isSetup rfl), ?_, ?_⟩
        · simp only [Bool.false_eq_true, if_false, run_record, hsniff]
          rfl
        · exact .inr ⟨_, [], rfl, ⟨hsrc, hplain, htimes, hsniff, hcount _, by rw [hpc]; rfl⟩, by
            rw [hpc]; rfl⟩
        · exact ⟨[], _, rfl, rfl, fun _ h => nomatch hpc.symm.trans h⟩
      | true =>
        have hswitch : st.switchTo .plain = ([.switch .plain], { st with bank := .plain }) :=
          if_neg (by rw [hbank]; decide)
        have h₁ : Agrees { st with bank := .plain } { m with bank := .plain } := h.plain rfl rfl
        refine ⟨[⟨.stageRead, m⟩, ⟨.switch .plain, m⟩, ⟨.stagePush, { m with bank := .plain }⟩],
          { m with bank := .plain }, ?_, ?_, ?_, ?_, ?_⟩
        · simp [hswitch, Banks.run, h.exec, Banks.put, h₁.exec]
        · simp only [if_true, hswitch]
          exact h₁
        · simp only [forall_mem_cons]
          exact ⟨Event.proper_of_not_isSetup rfl, h.proper_switch .plain, Event.proper_of_not_isSetup rfl, nofun⟩
        · refine .inr ⟨_, _, rfl, ⟨hsrc, hplain, htimes, hsniff, hcount _, by rw [hpc]; rfl⟩, ?_⟩
          rw [hpc]
          exact ⟨_, _, rfl, rfl, rfl, rfl⟩
        · exact ⟨[_, _], _, rfl, rfl, fun _ _ => rfl⟩
    | false =>
      cases hdiff : st.differs r.bank r.times with
      | true =>
        rw [plan_reload hdyn hdef hdiff]
        obtain ⟨es₁, m₁, hrun₁, h₁, htimes, hes₁⟩ := h.reload r.bank (times_ne_zero hdyn)
        obtain ⟨es₂, m₂, hrun₂, h₂, hes₂, hcount, pre, rfl, hpre⟩ := h₁.record r
        rw [Banks.run_append, hrun₁, hrun₂, ← append_assoc]
        refine ⟨_, m₂, rfl, h₂, ?_, Request.served_direct htimes hcount ?_⟩
        · rw [append_assoc]
          exact forall_mem_append.mpr ⟨fun e he => (hes₁ e he).1, hes₂⟩
        · exact forall_mem_append.mpr ⟨fun e he => (hes₁ e he).2, hpre⟩
      | false =>
        rw [plan_known (.inr ⟨hdef, hdiff⟩)]
        simp only [Cstate.differs, Bool.or_eq_false_iff, bne_eq_false_iff_eq] at hdiff
        have htimes : m.count r.bank = r.times := (h.count _ hdiff.2).trans hdiff.1
        obtain ⟨es, m', hrun, hagrees, hes, hcount, pre, rfl, hpre⟩ := h.record r
        exact ⟨_, m', hrun, hagrees, hes, Request.served_direct htimes hcount hpre⟩

/-! ## The end of an instruction -/

theorem differs_eq_false : st.differs b 1 = false ↔ st.cnt b = 1 ∧ st.dirty b = false := by
  simp [Cstate.differs]

theorem Agrees.restore (h : Agrees st m) (hplain : st.bank = .plain) (bs : List Bank) :
    ∃ es m', m.run (st.restore bs).1 = (es, m') ∧ Agrees (st.restore bs).2 m' ∧
      (st.restore bs).2.bank = st.bank ∧ (∀ e ∈ es, e.Proper) ∧
      ∀ b, b ∈ bs ∨ st.differs b 1 = false → (st.restore bs).2.differs b 1 = false := by
  induction bs generalizing st m with
  | nil => exact ⟨[], m, rfl, h, rfl, nofun, fun b hb => hb.resolve_left nofun⟩
  | cons b bs ih =>
    rw [Cstate.restore]
    split
    next =>
      obtain ⟨es, m', hrun, hagrees, hbank, hes, hone⟩ := ih (h.setCnt b (by decide : (1 : Word) ≠ 0)) hplain
      refine ⟨⟨.count b 1, m⟩ :: es, m', ?_, hagrees, hbank, ?_, fun c hc => hone c ?_⟩
      · simp only [Banks.run, h.exec, hrun]
      · exact forall_mem_cons.mpr ⟨h.proper_count hplain b 1, hes⟩
      · have hset : c = b → (st.setCnt b 1).differs c 1 = false := by
          rintro rfl
          exact differs_eq_false.mpr ⟨Function.update_self .., Function.update_self ..⟩
        have hother : st.differs c 1 = false → (st.setCnt b 1).differs c 1 = false := by
          intro hc
          by_cases hcb : c = b
          · exact hset hcb
          · rw [differs_eq_false] at hc ⊢
            exact ⟨(Function.update_of_ne hcb _ _).trans hc.1, (Function.update_of_ne hcb _ _).trans hc.2⟩
        rcases hc with hmem | hc
        · exact (mem_cons.mp hmem).elim (fun heq => .inr (hset heq)) .inl
        · exact .inr (hother hc)
    next hdiff =>
      obtain ⟨es, m', hrun, hagrees, hbank, hes, hone⟩ := ih h hplain
      refine ⟨es, m', hrun, hagrees, hbank, hes, fun c hc => hone c ?_⟩
      rcases hc with hmem | hc
      · refine (mem_cons.mp hmem).elim (fun heq => .inr ?_) .inl
        exact heq ▸ Bool.eq_false_iff.mpr hdiff
      · exact .inr hc

theorem mem_all (b : Bank) : b ∈ Bank.all := by
  cases b <;> decide

/-- With plain selected and no count other than 1, all is canonical. -/
theorem Agrees.eq_canonical (h : Agrees st m) (hbank : st.bank = .plain)
    (hone : ∀ b, st.differs b 1 = false) : st = .init ∧ m = .canonical := by
  have hcnt : st.cnt = fun _ => 1 := funext fun b => (differs_eq_false.mp (hone b)).1
  have hdirty : st.dirty = fun _ => false := funext fun b => (differs_eq_false.mp (hone b)).2
  have hcount : m.count = fun _ => 1 :=
    funext fun b => (h.count b (congrFun hdirty b)).trans (congrFun hcnt b)
  have hm := h.bank.trans hbank
  obtain ⟨bank, cnt, dirty⟩ := st
  obtain ⟨mbank, count⟩ := m
  subst hbank hcnt hdirty hcount hm
  exact ⟨rfl, rfl⟩

/-- `planSync` ends an instruction in the canonical state. -/
theorem Agrees.planSync (h : Agrees st m) :
    ∃ es, m.run st.planSync.1 = (es, .canonical) ∧ st.planSync.2 = .init ∧ ∀ e ∈ es, e.Proper := by
  obtain ⟨es₁, m₁, hrun₁, hbank₁, hcount₁, hst₁, hes₁⟩ := h.switchTo .plain
  have h₁ : Agrees (st.switchTo .plain).2 m₁ := hst₁ ▸ h.plain hbank₁ hcount₁
  have hplain : (st.switchTo .plain).2.bank = .plain := by rw [hst₁]
  unfold Cstate.planSync
  by_cases hany : (Bank.all.any fun b => st.differs b 1) = true
  · obtain ⟨es₂, m₂, hrun₂, h₂, hbank₂, hes₂, hone⟩ := h₁.restore hplain Bank.all
    obtain ⟨hinit, hcanon⟩ := h₂.eq_canonical (hbank₂.trans hplain) fun b => hone b (.inl (mem_all b))
    have hstay : Cstate.init.switchTo .plain = ([], .init) := rfl
    refine ⟨es₁ ++ es₂, ?_, ?_, ?_⟩
    · simp only [if_pos hany, hinit, hstay, append_nil, Banks.run_append, hrun₁, hrun₂, hcanon]
    · simp only [if_pos hany, hinit, hstay]
    · exact forall_mem_append.mpr ⟨fun e he => (hes₁ e he).1, hes₂⟩
  · have hone : ∀ b, (st.switchTo .plain).2.differs b 1 = false := by
      intro b
      rw [hst₁]
      simp only [any_eq_true, not_exists, not_and, Bool.not_eq_true] at hany
      exact hany b (mem_all b)
    obtain ⟨hinit, hcanon⟩ := h₁.eq_canonical hplain hone
    refine ⟨es₁, ?_, ?_, fun e he => (hes₁ e he).1⟩
    · simp only [if_neg hany, nil_append, hrun₁, hcanon]
    · simp only [if_neg hany, hinit]

/-! ## Blocks of one transfer -/

/-- A block of one transfer. If it goes to the program counter then on plain. -/
structure Request.Single (r : Request) : Prop where
  dyn : r.dyn = false
  times : r.times = 1
  pc : r.dstPc = true → r.bank = .plain

/-- The record of a block that writes its destination. -/
def Event.Delivers (e : Event) : Prop := e.prim = .record ∨ e.prim = .stagePush

/-- Every count is known to be 1. -/
def Cstate.Ones (st : Cstate) : Prop := ∀ b, st.differs b 1 = false

theorem Cstate.ones_congr {st' : Cstate} (hcnt : st'.cnt = st.cnt) (hdirty : st'.dirty = st.dirty)
    (h : st.Ones) : st'.Ones := by
  intro b
  have hb := differs_eq_false.mp (h b)
  exact differs_eq_false.mpr ⟨hcnt ▸ hb.1, hdirty ▸ hb.2⟩

theorem switchTo_cnt (st : Cstate) (b : Bank) :
    (st.switchTo b).2.cnt = st.cnt ∧ (st.switchTo b).2.dirty = st.dirty := by
  unfold Cstate.switchTo
  split <;> exact ⟨rfl, rfl⟩

/-- Blocks of one transfer leave the counts alone. -/
theorem Cstate.Ones.plan (h : st.Ones) (hr : r.Single) : (st.plan r.shape).2.Ones := by
  cases hdef : st.defers r.shape r.times with
  | true =>
    rw [plan_deferred hr.dyn hdef]
    split
    · exact Cstate.ones_congr (switchTo_cnt ..).1 (switchTo_cnt ..).2 h
    · exact h
  | false =>
    rw [plan_known (.inr ⟨hdef, hr.times ▸ h r.bank⟩), after_shape, hr.dyn]
    exact Cstate.ones_congr (switchTo_cnt ..).1 (switchTo_cnt ..).2 h

theorem Agrees.count_eq (h : Agrees st m) (hone : st.Ones) : m.count = fun _ => 1 :=
  funext fun b =>
    have hb := differs_eq_false.mp (hone b)
    (h.count b hb.2).trans hb.1

/-- Where the program counter is written, all is canonical. -/
theorem Request.Single.delivers {es : List Event} {m' : Banks} (hr : r.Single) (hserved : r.Served es)
    (hends : r.Ends es m') (hone : m'.count = fun _ => 1) {e : Event} (he : e ∈ es) (hpc : r.dstPc = true)
    (hw : e.Delivers) : e.on = .canonical := by
  obtain ⟨pre, last, rfl, hcount, hplain⟩ := hends
  have hcanon : last.on = .canonical := by
    have hbank : last.on.bank = .plain := hplain (hr.pc hpc) hpc
    rw [hone] at hcount
    exact congrArg₂ Banks.mk hbank hcount
  have hlast : e ∈ pre → False := by
    intro hpre
    rcases hserved with ⟨pre', e', heq, -, hsetup⟩ | ⟨e', post, heq, hdef, hpost⟩
    · have hpre' : pre = pre' := (append_inj' heq rfl).1
      have := hsetup e (hpre' ▸ hpre)
      rcases hw with hw | hw <;> rw [hw] at this <;> cases this
    · rw [hpc] at hpost
      obtain ⟨e₁, e₂, rfl, hswitch, -, -⟩ := hpost
      have hpre' : pre = [e', e₁] := (append_inj' (show pre ++ [last] = [e', e₁] ++ [e₂] from heq) rfl).1
      rw [hpre', mem_cons, mem_singleton] at hpre
      have hread := hdef.prim
      rw [hpc] at hread
      rcases hpre with rfl | rfl <;> rcases hw with hw | hw
      · cases hread.symm.trans hw
      · cases hread.symm.trans hw
      · cases hswitch.symm.trans hw
      · cases hswitch.symm.trans hw
  rcases mem_append.mp he with hpre | hmem
  · exact (hlast hpre).elim
  · exact mem_singleton.mp hmem ▸ hcanon

/-! ## Instructions -/

/-- The blocks of an instruction one after the other, each with its events. -/
def Cstate.serve (st : Cstate) (m : Banks) : List Request → List (Request × List Event) × Cstate × Banks
  | [] => ([], st, m)
  | r :: rs =>
    let (es, m) := (r.patch m).run (st.plan r.shape).1
    let (rest, fin) := (st.plan r.shape).2.serve m rs
    ((r, es) :: rest, fin)

theorem Agrees.serve (h : Agrees st m) (rs : List Request) :
    (∀ x ∈ (st.serve m rs).1, x.1.Served x.2 ∧ ∀ e ∈ x.2, e.Proper) ∧
      (st.serve m rs).1.map Prod.fst = rs ∧ Agrees (st.serve m rs).2.1 (st.serve m rs).2.2 := by
  induction rs generalizing st m with
  | nil => exact ⟨nofun, rfl, h⟩
  | cons r rs ih =>
    obtain ⟨es, m', hrun, hagrees, hes, hserved, _⟩ := h.plan r
    obtain ⟨hall, hmap, hlast⟩ := ih hagrees
    simp only [Cstate.serve, hrun]
    exact ⟨forall_mem_cons.mpr ⟨⟨hserved, hes⟩, hall⟩, congrArg _ hmap, hlast⟩

theorem Agrees.serve_single (h : Agrees st m) (hone : st.Ones) {rs : List Request}
    (hrs : ∀ r ∈ rs, r.Single) :
    (st.serve m rs).2.1.Ones ∧ ∀ x ∈ (st.serve m rs).1, ∀ e ∈ x.2,
      x.1.dstPc = true → e.Delivers → e.on = .canonical := by
  induction rs generalizing st m with
  | nil => exact ⟨hone, nofun⟩
  | cons r rs ih =>
    obtain ⟨hr, hrs⟩ := forall_mem_cons.mp hrs
    obtain ⟨es, m', hrun, hagrees, hes, hserved, hends⟩ := h.plan r
    have hone' := hone.plan hr
    obtain ⟨hlast, hall⟩ := ih hagrees hone' hrs
    simp only [Cstate.serve, hrun]
    refine ⟨hlast, forall_mem_cons.mpr ⟨fun e he => ?_, hall⟩⟩
    exact hr.delivers hserved hends (hagrees.count_eq hone') he

/-- An instruction: its blocks, and the records that end it. -/
def Cstate.serveInstr (st : Cstate) (m : Banks) (rs : List Request) :
    List (Request × List Event) × List Event × Cstate × Banks :=
  let (xs, st, m) := st.serve m rs
  let (es, m) := m.run st.planSync.1
  (xs, es, st.planSync.2, m)

/-- A list of instructions. -/
def Cstate.serveAll (st : Cstate) (m : Banks) :
    List (List Request) → List (List (Request × List Event) × List Event) × Cstate × Banks
  | [] => ([], st, m)
  | rs :: prog =>
    let (xs, es, st, m) := st.serveInstr m rs
    let (rest, fin) := st.serveAll m prog
    ((xs, es) :: rest, fin)

/-- From the canonical state an instruction serves all its blocks and ends in the
    canonical state. -/
theorem serveInstr_init (rs : List Request) :
    ∃ xs es, Cstate.init.serveInstr .canonical rs = (xs, es, .init, .canonical) ∧
      xs.map Prod.fst = rs ∧ (∀ x ∈ xs, x.1.Served x.2 ∧ ∀ e ∈ x.2, e.Proper) ∧ ∀ e ∈ es, e.Proper := by
  obtain ⟨hall, hmap, hlast⟩ := agrees_init.serve rs
  obtain ⟨es, hrun, hst, hes⟩ := hlast.planSync
  exact ⟨_, es, by simp only [Cstate.serveInstr, hrun, hst], hmap, hall, hes⟩

theorem serveAll_init (prog : List (List Request)) :
    ∃ xs, Cstate.init.serveAll .canonical prog = (xs, .init, .canonical) ∧
      xs.map (fun x => x.1.map Prod.fst) = prog ∧
      ∀ x ∈ xs, (∀ y ∈ x.1, y.1.Served y.2 ∧ ∀ e ∈ y.2, e.Proper) ∧ ∀ e ∈ x.2, e.Proper := by
  induction prog with
  | nil => exact ⟨[], rfl, rfl, nofun⟩
  | cons rs prog ih =>
    obtain ⟨xs, es, hinstr, hmap, hall, hes⟩ := serveInstr_init rs
    obtain ⟨rest, hrest, hmaps, halls⟩ := ih
    refine ⟨(xs, es) :: rest, ?_, ?_, forall_mem_cons.mpr ⟨⟨hall, hes⟩, halls⟩⟩
    · simp [Cstate.serveAll, hinstr, hrest]
    · rw [map_cons, hmaps, hmap]

end

end DmaCpu.Dmaasm
