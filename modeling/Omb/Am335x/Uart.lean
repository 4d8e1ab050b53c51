import Omb.Am335x.Proc0
import Omb.Kern.Outbox
import Omb.Lib.Checked
import Omb.Libstring.Strings

/-!
# The UART server

`main` of `am335x/base/uart/main.c`: it asks `proc0` for the registers, and then prints what
it is sent, message after message.  A step of a `Uart` is what it does from one system call to
the next, or the return of a call.

Of its page a call may change all but `m_out`, which the kernel only reads
(`uartStep_of_kernelRun`), and what is behind the page may be anything whenever it is looked
at.  A tick inside a step makes no difference (`Move.pageOf_kept`).

`puts` stops at a zero, and the kernel does not see to it that there is one in a message.  The
request for the registers is still in `m_out` when it prints, though, and the first byte of
that is `MESSAGE_addr`, which is zero (`UartRun.terminated`).  So `puts` gets no further than
the byte behind the message, and what it prints is a function of the message
(`prints_message_only`).

The messages are arbitrary here, and so is what `send` and `recv` return.  That with proc0 as
it is none ever comes is a matter of the whole board (`Omb.Am335x.Board`).

## Main results

* `Uart.puts_eq`: what is behind a zero makes no difference
* `UartRun.terminated`: the request stays in `m_out`
* `uartStep_of_kernelRun`: what the kernel does until a call returns is a step of the server
* `prints_message_only`: what is printed depends on the message only
-/

namespace Omb

open Checked

/-! ## The process page in memory -/

def Message.bytes (m : Message) : List Byte :=
  m.toList.map UInt8.toBitVec

/-- A store of bytes at offset `o` of a message. -/
def Message.store (m : Message) (o : ℕ) (bs : List Byte) : Message :=
  Vector.ofFn fun i => if o ≤ i.val then
    (bs[i.val - o]?.map UInt8.ofBitVec).getD m[i] else m[i]

/-- What is in memory from `m_in` on, where `behind` is behind the page.  The byte behind the
message is the first one of `m_out`. -/
def ProcPage.fromIn (page : ProcPage) (behind : List Byte) : List Byte :=
  page.mIn.bytes ++ (page.mOut.bytes ++ (intBytes page.mRet ++ behind))

/-! ## The server -/

/-- Where `main` is. -/
inductive Place where
  | start
  /-- In `get_proc_page`. -/
  | gettingPage
  | gotPage
  /-- In `addr_offer`. -/
  | offering
  | offered
  /-- In `send(0)`. -/
  | sending
  | sent
  /-- In `recv` or `reply_recv`. -/
  | receiving
  /-- At `puts((char *) page->m_in)`. -/
  | printing (pid : Word)
  /-- In one of the `while (true)`. -/
  | halted
  deriving DecidableEq

structure Uart where
  place : Place
  page : ProcPage
  /-- What is behind the page. -/
  behind : List Byte

/-- What the server does: its system calls, the bytes of strings that it looks at, and the
bytes that it puts in the transmitter. -/
inductive UartEvent where
  | call (c : Syscall)
  /-- `*c`, where `c` is `i` characters behind the start of the string. -/
  | read (i : ℕ) (c : Byte)
  /-- `uart->hr = c` -/
  | emit (c : Byte)

/-- Why it does not go on. -/
inductive UartStop where
  | fault (f : Fault)
  /-- The action does not exist in this place. -/
  | disabled

/-- What happens to it. -/
inductive UartAction where
  /-- It goes on to its next system call. -/
  | run
  /-- The call it is in returns `ret`. -/
  | ret (ret : Word) (page : ProcPage) (behind : List Byte)

namespace Uart

/-- `putc(c)`, once the transmitter is ready. -/
def putc (c : Byte) : List UartEvent :=
  if c = chr '\n' then [.emit (chr '\r'), .emit c] else [.emit c]

/-- `puts(c)`, with what is from `c` on; `i` characters have been put.  It fails where it reads
more than there is. -/
def puts : ℕ → List Byte → Checked UartEvent Fault Unit
  | _, [] => fail .pastEnd
  | i, c :: s => do
      event (.read i c)
      if c = 0 then pure ()
      else do
        events (putc c)
        puts (i + 1) s

/-- `MESSAGE_addr` -/
def messageAddr : Byte := 0

/-- `UART0` -/
def uart0 : Word := 0x44E09000

/-- `sizeof(struct uart_regs)` -/
def sizeofUartRegs : Word := 124

/-- The request for the registers, in what is in `m_out`.  A `message_t` is one byte, and the
three behind it are left as they were. -/
def areq (m : Message) : Message :=
  ((m.store 0 [messageAddr]).store 4 (intBytes uart0)).store 8
    (intBytes (pageAlign sizeofUartRegs))

/-- A string of the program is printed, or the message, and then a call is made. -/
def putsThen (x : Uart) (s : List Byte) (c : Syscall) : Except UartStop (Uart × List UartEvent) :=
  match (puts 0 s).result with
  | .error f => .error (.fault f)
  | .ok _ => .ok ({ x with place := .receiving }, (puts 0 s).trace ++ [.call c])

/-- `main`, from one system call to the next. -/
def run (x : Uart) : Except UartStop (Uart × List UartEvent) :=
  match x.place with
  | .start => .ok ({ x with place := .gettingPage }, [.call .getProcPage])
  | .gotPage =>
      .ok ({ x with
          place := .offering
          page := { x.page with mOut := areq x.page.mOut } },
        [.call (.addrOffer 0 0xa0000 (pageAlign sizeofUartRegs)
          (addrRead ||| addrWrite ||| addrTake))])
  | .offered => .ok ({ x with place := .sending }, [.call (.send 0)])
  | .sent => x.putsThen ("Hello from userspace!\n".toList.map chr ++ [0]) (.recv pidAll)
  | .printing pid => x.putsThen (x.page.fromIn x.behind) (.replyRecv pid ok pidAll)
  | .halted => .ok (x, [])
  | _ => .error .disabled

/-- Where `main` goes on when a call returns. -/
def after (r : Word) : Place → Option Place
  | .gettingPage => some .gotPage
  | .offering => some (if r = ok then .offered else .halted)
  | .sending => some (if r = ok then .sent else .halted)
  | .receiving => some (.printing r)
  | _ => none

end Uart

/-- One step. -/
def uartStep (x : Uart) : UartAction → Except UartStop (Uart × List UartEvent)
  | .run => x.run
  | .ret r page behind =>
      match Uart.after r x.place with
      | none => .error .disabled
      | some place =>
          if page.mOut = x.page.mOut then .ok (⟨place, page, behind⟩, [])
          else .error .disabled

/-- A run of the server, with anything in its page and behind it to begin with. -/
def UartRun (tr : List (Machine.Transition Uart UartAction UartEvent)) (x : Uart) : Prop :=
  ∃ page behind, Machine.Run uartStep ⟨.start, page, behind⟩ tr x

/-! ## What is printed -/

/-- The bytes that are put in the transmitter. -/
def emitted (evs : List UartEvent) : List Byte :=
  evs.filterMap fun
    | .emit c => some c
    | _ => none

/-- What is seen of a string: its characters up to a zero, with a return before each line
feed. -/
def shown (s : List Byte) : List Byte :=
  (s.takeWhile (· ≠ 0)).flatMap fun c => if c = chr '\n' then [chr '\r', c] else [c]

/-- All that is read is the string, and the zero behind it if there is none in it. -/
def ReadsOnly (s : List Byte) (evs : List UartEvent) : Prop :=
  ∀ i c, .read i c ∈ evs → s[i]? = some c ∨ i = s.length ∧ c = 0

namespace Uart

/-- What `puts` does, in front of a zero. -/
def putsTrace : ℕ → List Byte → List UartEvent
  | i, [] => [.read i 0]
  | i, c :: s => .read i c :: if c = 0 then [] else putc c ++ putsTrace (i + 1) s

/-- **What is behind a zero makes no difference.** -/
theorem puts_eq (i : ℕ) (s rest : List Byte) :
    puts i (s ++ 0 :: rest) = ⟨putsTrace i s, .ok ()⟩ := by
  induction s generalizing i with
  | nil => rfl
  | cons c s ih =>
      rw [List.cons_append, puts, putsTrace]
      split_ifs with hc
      · rfl
      · rw [ih]
        rfl

theorem emitted_putsTrace (i : ℕ) (s : List Byte) : emitted (putsTrace i s) = shown s := by
  induction s generalizing i with
  | nil => rfl
  | cons c s ih =>
      rw [putsTrace, shown, List.takeWhile_cons]
      by_cases hc : c = 0
      · simp [hc, emitted]
      · have hput : emitted (putc c) = if c = chr '\n' then [chr '\r', c] else [c] := by
          unfold putc
          split_ifs <;> rfl
        have hrest : emitted (putsTrace (i + 1) s) = shown s := ih (i + 1)
        rw [if_neg hc, if_pos (decide_eq_true hc), List.flatMap_cons, ← hput]
        rw [shown] at hrest
        rw [← hrest]
        simp [emitted]

theorem read_mem_putsTrace {i : ℕ} {s : List Byte} {j : ℕ} {c : Byte}
    (h : .read j c ∈ putsTrace i s) :
    i ≤ j ∧ (s[j - i]? = some c ∨ j - i = s.length ∧ c = 0) := by
  induction s generalizing i with
  | nil =>
      rw [putsTrace, List.mem_singleton] at h
      cases h
      exact ⟨le_refl _, .inr ⟨Nat.sub_self _, rfl⟩⟩
  | cons d s ih =>
      rw [putsTrace] at h
      rcases List.mem_cons.mp h with hread | h
      · cases hread
        exact ⟨le_refl _, .inl (by rw [Nat.sub_self]; rfl)⟩
      · by_cases hd : d = 0
        · rw [if_pos hd] at h
          exact absurd h List.not_mem_nil
        · rw [if_neg hd] at h
          rcases List.mem_append.mp h with hput | hrest
          · unfold putc at hput
            split_ifs at hput <;> simp at hput
          · obtain ⟨hle, hread⟩ := ih hrest
            have hsucc : j - i = j - (i + 1) + 1 := by omega
            refine ⟨by omega, ?_⟩
            rw [hsucc, List.getElem?_cons_succ, List.length_cons, Nat.add_right_cancel_iff]
            exact hread

theorem readsOnly_putsTrace (s : List Byte) : ReadsOnly s (putsTrace 0 s) :=
  fun _ _ h => (read_mem_putsTrace h).2

end Uart

/-! ## The request in `m_out` -/

theorem Message.byte_eq (m : Message) {i : ℕ} (hi : i < messageLen) :
    m.byte i = m[i].toBitVec := by
  rw [Message.byte, Vector.getElem?_eq_getElem hi]
  rfl

theorem Message.getElem?_bytes (m : Message) {i : ℕ} (hi : i < messageLen) :
    m.bytes[i]? = some (m.byte i) := by
  rw [m.byte_eq hi, Message.bytes, List.getElem?_map, Vector.getElem?_toList,
    Vector.getElem?_eq_getElem hi]
  rfl

theorem Message.length_bytes (m : Message) : m.bytes.length = messageLen := by
  rw [Message.bytes, List.length_map, Vector.length_toList]

theorem Message.bytes_eq_cons (m : Message) : ∃ rest, m.bytes = m.byte 0 :: rest := by
  have hhead : m.bytes.head? = some (m.byte 0) := by
    rw [List.head?_eq_getElem?]
    exact m.getElem?_bytes (by decide)
  exact List.head?_eq_some_iff.mp hhead

theorem Message.byte_store_of_lt (m : Message) {o i : ℕ} (hi : i < messageLen) (ho : i < o)
    (bs : List Byte) : (m.store o bs).byte i = m.byte i := by
  rw [Message.byte_eq _ hi, Message.byte_eq _ hi, Message.store, Vector.getElem_ofFn,
    if_neg (not_le.mpr ho)]
  rfl

/-- The type of the request is the first byte. -/
theorem Uart.byte_areq (m : Message) : (Uart.areq m).byte 0 = messageAddr := by
  have hlen : 0 < messageLen := by decide
  rw [areq, Message.byte_store_of_lt _ hlen (by omega), Message.byte_store_of_lt _ hlen (by omega),
    Message.byte_eq _ hlen, Message.store, Vector.getElem_ofFn]
  rfl

/-- `main` has not yet written its request. -/
def Place.Early (p : Place) : Prop :=
  p = .start ∨ p = .gettingPage ∨ p = .gotPage

/-- The request is in `m_out`, if it has been written.  That is all that the result needs of
the page. -/
def Uart.Terminated (x : Uart) : Prop :=
  ¬ x.place.Early → x.page.mOut.byte 0 = 0

theorem Uart.putsThen_page {x x' : Uart} {str : List Byte} {c : Syscall} {evs : List UartEvent}
    (h : x.putsThen str c = .ok (x', evs)) : x'.page = x.page := by
  unfold putsThen at h
  split at h <;> cases h
  rfl

theorem Uart.Terminated.step {x x' : Uart} (h : x.Terminated) {a : UartAction}
    {evs : List UartEvent} (hs : uartStep x a = .ok (x', evs)) : x'.Terminated := by
  cases a with
  | run =>
      have hkeep : ¬ x.place.Early → x'.page = x.page → x'.Terminated := by
        intro hlate hpage _
        rw [hpage]
        exact h hlate
      have hplace : ∀ p, x.place = p → ¬ p.Early → ¬ x.place.Early := fun p hp => hp ▸ id
      rw [uartStep, Uart.run] at hs
      cases hp : x.place <;> rw [hp] at hs <;> dsimp only at hs
      case start =>
        cases hs
        exact fun hlate => absurd (.inr (.inl rfl)) hlate
      case gotPage =>
        cases hs
        exact fun _ => Uart.byte_areq _
      case offered =>
        cases hs
        exact hkeep (hplace _ hp (by simp [Place.Early])) rfl
      case halted =>
        cases hs
        exact hkeep (hplace _ hp (by simp [Place.Early])) rfl
      case sent | printing =>
        exact hkeep (hplace _ hp (by simp [Place.Early])) (Uart.putsThen_page hs)
      all_goals cases hs
  | ret r page behind =>
      rw [uartStep] at hs
      split at hs
      · cases hs
      · rename_i place hafter
        split_ifs at hs with hout
        cases hs
        intro hlate
        show page.mOut.byte 0 = 0
        rw [hout]
        refine h fun hearly => ?_
        rcases hearly with hp | hp | hp <;> rw [hp] at hafter <;> cases hafter
        exact hlate (.inr (.inr rfl))

theorem UartRun.terminated {tr : List (Machine.Transition Uart UartAction UartEvent)} {x : Uart}
    (h : UartRun tr x) : x.Terminated := by
  obtain ⟨page, behind, hrun⟩ := h
  refine hrun.invariant (P := fun _ x => x.Terminated) (C := fun _ => True) ?_ ?_ fun _ _ => trivial
  · exact fun hlate => absurd (.inl rfl) hlate
  · exact fun _ _ _ _ _ _ hterm _ hs => hterm.step hs

/-! ## The kernel -/

/-- A call returns, and leaves `m_out` as it was. -/
theorem uartStep_ret {x : Uart} {r : Word} {page : ProcPage} {place : Place}
    (hafter : Uart.after r x.place = some place) (hout : page.mOut = x.page.mOut)
    (behind : List Byte) :
    uartStep x (.ret r page behind) = .ok (⟨place, page, behind⟩, []) := by
  rw [uartStep, hafter]
  dsimp only
  rw [if_pos hout]

/-- What the kernel and the other processes do until a call returns is a step of the server,
so that nothing is left out with the steps of `Uart`. -/
theorem uartStep_of_kernelRun {tr tr' : List KStep} {s s' : State} (h : KernelRun tr s)
    (hrun : Machine.Run step s tr' s') (hn : created (tr ++ tr') ≤ maxProcs)
    (hfresh : ∀ t ∈ tr ++ tr', FreshPages t) {p : ProcRef} (hp : (s.procs p).state ≠ .dead)
    (hleaves : ∀ t ∈ tr', LeavesOwnPage p t) {x : Uart} (hpage : x.page = s.pageOf p) {r : Word}
    {place : Place} (hafter : Uart.after r x.place = some place) (behind : List Byte) :
    uartStep x (.ret r (s'.pageOf p) behind) = .ok (⟨place, s'.pageOf p, behind⟩, []) := by
  have hout := (h.mOut_kept hrun hn hfresh hp hleaves).2
  rw [← hpage] at hout
  exact uartStep_ret hafter hout behind

/-! ## Messages that come -/

theorem uartStep_hello {x : Uart} (hp : x.place = .sent) :
    ∃ evs, uartStep x .run = .ok ({ x with place := .receiving }, evs) := by
  rw [uartStep, Uart.run, hp]
  dsimp only
  rw [Uart.putsThen, Uart.puts_eq]
  exact ⟨_, rfl⟩

theorem exists_uartRun_snoc {x y : Uart} {a : UartAction} {evs : List UartEvent}
    (h : ∃ tr, UartRun tr x) (hs : uartStep x a = .ok (y, evs)) : ∃ tr, UartRun tr y := by
  obtain ⟨tr, page, behind, hrun⟩ := h
  exact ⟨_, page, behind, hrun.snoc hs⟩

/-- Any message may come, with anything in the page but another request.  The result below is
about something, then. -/
theorem exists_printing (page : ProcPage) (behind : List Byte) (m : Message) (pid : Word) :
    ∃ tr, UartRun tr
      ⟨.printing pid, { page with mIn := m, mOut := Uart.areq page.mOut }, behind⟩ := by
  obtain ⟨out, hout⟩ : ∃ out, Uart.areq page.mOut = out := ⟨_, rfl⟩
  rw [hout]
  let asked : ProcPage := { page with mOut := out }
  have hstart : ∃ tr, UartRun tr ⟨.start, page, behind⟩ := ⟨[], page, behind, .nil⟩
  have hgetting : uartStep ⟨.start, page, behind⟩ .run =
      .ok (⟨.gettingPage, page, behind⟩, [.call .getProcPage]) := rfl
  have hgot : uartStep ⟨.gettingPage, page, behind⟩ (.ret 0 page behind) =
      .ok (⟨.gotPage, page, behind⟩, []) := by
    apply uartStep_ret <;> rfl
  have hoffering : uartStep ⟨.gotPage, page, behind⟩ .run =
      .ok (⟨.offering, asked, behind⟩, [.call (.addrOffer 0 0xa0000
        (pageAlign Uart.sizeofUartRegs) (addrRead ||| addrWrite ||| addrTake))]) := by
    subst hout
    rfl
  have hoffered : uartStep ⟨.offering, asked, behind⟩ (.ret ok asked behind) =
      .ok (⟨.offered, asked, behind⟩, []) := by
    apply uartStep_ret <;> rfl
  have hsending : uartStep ⟨.offered, asked, behind⟩ .run =
      .ok (⟨.sending, asked, behind⟩, [.call (.send 0)]) := rfl
  have hsent : uartStep ⟨.sending, asked, behind⟩ (.ret ok asked behind) =
      .ok (⟨.sent, asked, behind⟩, []) := by
    apply uartStep_ret <;> rfl
  obtain ⟨evs, hreceiving⟩ := @uartStep_hello ⟨.sent, asked, behind⟩ rfl
  have hprinting : uartStep ⟨.receiving, asked, behind⟩ (.ret pid { asked with mIn := m } behind) =
      .ok (⟨.printing pid, { asked with mIn := m }, behind⟩, []) := by
    apply uartStep_ret <;> rfl
  have h₁ := exists_uartRun_snoc (exists_uartRun_snoc hstart hgetting) hgot
  have h₂ := exists_uartRun_snoc (exists_uartRun_snoc h₁ hoffering) hoffered
  have h₃ := exists_uartRun_snoc (exists_uartRun_snoc h₂ hsending) hsent
  exact exists_uartRun_snoc (exists_uartRun_snoc h₃ hreceiving) hprinting

/-! ## What is printed depends on the message only -/

/-- `main` prints the message, whatever is behind it. -/
theorem UartRun.prints {tr : List (Machine.Transition Uart UartAction UartEvent)} {x : Uart}
    (h : UartRun tr x) {pid : Word} (hp : x.place = .printing pid) :
    ∃ y evs, uartStep x .run = .ok (y, evs) ∧ emitted evs = shown x.page.mIn.bytes ∧
      ReadsOnly x.page.mIn.bytes evs := by
  have hlate : ¬ x.place.Early := by
    rw [hp]
    simp [Place.Early]
  obtain ⟨rest, hout⟩ := x.page.mOut.bytes_eq_cons
  rw [h.terminated hlate] at hout
  have hputs : Uart.puts 0 (x.page.fromIn x.behind) = _ :=
    (congrArg (Uart.puts 0) (by rw [ProcPage.fromIn, hout, List.cons_append])).trans
      (Uart.puts_eq 0 x.page.mIn.bytes (rest ++ (intBytes x.page.mRet ++ x.behind)))
  refine ⟨{ x with place := .receiving }, Uart.putsTrace 0 x.page.mIn.bytes ++
    [.call (.replyRecv pid ok pidAll)], ?_, ?_, ?_⟩
  · rw [uartStep, Uart.run, hp]
    dsimp only
    rw [Uart.putsThen, hputs]
  · rw [emitted, List.filterMap_append]
    exact (List.append_nil _).trans (Uart.emitted_putsTrace 0 _)
  · intro i c hread
    refine Uart.readsOnly_putsTrace _ i c ?_
    simpa using hread

/-- **The UART server prints the message only.**  In any two runs, whatever is in the pages
and behind them, the same message makes it put the same bytes, and it reads no more than the
64 characters of the message and a zero behind them. -/
theorem prints_message_only {tr₁ tr₂ : List (Machine.Transition Uart UartAction UartEvent)}
    {x₁ x₂ : Uart} (h₁ : UartRun tr₁ x₁) (h₂ : UartRun tr₂ x₂) {pid₁ pid₂ : Word}
    (hp₁ : x₁.place = .printing pid₁) (hp₂ : x₂.place = .printing pid₂)
    (hin : x₁.page.mIn = x₂.page.mIn) :
    ∃ y₁ evs₁ y₂ evs₂, uartStep x₁ .run = .ok (y₁, evs₁) ∧ uartStep x₂ .run = .ok (y₂, evs₂) ∧
      emitted evs₁ = emitted evs₂ ∧ emitted evs₁ = shown x₁.page.mIn.bytes ∧
      x₁.page.mIn.bytes.length = messageLen ∧ ReadsOnly x₁.page.mIn.bytes evs₁ ∧
      ReadsOnly x₁.page.mIn.bytes evs₂ := by
  obtain ⟨y₁, evs₁, hs₁, hout₁, hreads₁⟩ := h₁.prints hp₁
  obtain ⟨y₂, evs₂, hs₂, hout₂, hreads₂⟩ := h₂.prints hp₂
  rw [← hin] at hout₂ hreads₂
  exact ⟨y₁, evs₁, y₂, evs₂, hs₁, hs₂, hout₁.trans hout₂.symm, hout₁,
    Message.length_bytes _, hreads₁, hreads₂⟩

/-- A message without a zero, in two pages that have nothing else in common. -/
theorem prints_unterminated :
    ∃ x₁ x₂ : Uart, x₁.page.mOut ≠ x₂.page.mOut ∧ x₁.page.mRet ≠ x₂.page.mRet ∧
      x₁.behind ≠ x₂.behind ∧
      ∃ y₁ evs₁ y₂ evs₂, uartStep x₁ .run = .ok (y₁, evs₁) ∧ uartStep x₂ .run = .ok (y₂, evs₂) ∧
        emitted evs₁ = emitted evs₂ ∧ emitted evs₁ = List.replicate 64 (chr 'a') := by
  let m : Message := Vector.replicate messageLen 97
  let full : ProcPage := ⟨1, m, Vector.replicate messageLen 98, 7⟩
  obtain ⟨tr₁, h₁⟩ := exists_printing .zero [] m 0
  obtain ⟨tr₂, h₂⟩ := exists_printing full [chr 'c'] m 2
  obtain ⟨y₁, evs₁, y₂, evs₂, hs₁, hs₂, heq, hshown, -⟩ := prints_message_only h₁ h₂ rfl rfl rfl
  refine ⟨_, _, ?_, ?_, ?_, y₁, evs₁, y₂, evs₂, hs₁, hs₂, heq, hshown.trans ?_⟩
  · -- the last byte is as it was
    exact fun hout => absurd (congrArg (Message.byte · 63) hout) (by decide +kernel)
  · decide
  · exact (List.cons_ne_nil _ _).symm
  · decide +kernel

end Omb
