/-
Runs of the driver, and the card the file system is written on.

The file system takes the card at block level (`Device.Card`): a transfer does
what it should, or it fails and nothing has happened. Here that is what the driver
makes of a card on the wires: a sequence of reads and writes returns what it would
return on the block-level card whose faults are the refusals, for every card and
every timing, up to the first call that goes wrong half-way (`session_refines`).
From there on only the block that call was writing is in doubt.

Such runs exist: a card that makes its choices as they are made for it (`react`)
steps as a card may, so a run can be checked by following it.
-/
import Fkfs.SpiStart
import Fkfs.Device

set_option autoImplicit false

namespace Fkfs.Spi

open Bytes Programs Dialogues
open Fkfs.Layout Fkfs.Driver Fkfs.Release
open Fkfs.Device (Card)

/-! ## Sessions -/

/-- A block read or written. -/
inductive Transfer
  | read (block : UInt32)
  | write (block : UInt32) (source : Block)

def Transfer.block : Transfer → UInt32
  | .read block => block
  | .write block _ => block

/-- What came of it: the bytes that were read, a first command that was refused, or
something later that went wrong. -/
inductive Outcome
  | done (bytes : List UInt8)
  | refused
  | failed
  deriving DecidableEq

/-- What `sd->status` is where the first command was refused. -/
def Transfer.refusal : Transfer → UInt8
  | .read _ => SD_CARD_ERROR_CMD17
  | .write _ _ => SD_CARD_ERROR_CMD24

def Transfer.run (n : ℕ) : Transfer → Prog Bus (Bool × List UInt8)
  | .read block => sd_raw_read_block n block
  | .write block source => do
    let written ← sd_raw_write_block n block source
    pure (written, [])

/-- One transfer, and what its caller sees of it. -/
def perform (n : ℕ) (t : Transfer) : Prog Bus Outcome := do
  let r ← t.run n
  let sd ← read Bus.sd
  pure (if r.1 = true then .done r.2 else if sd.status = t.refusal then .refused else .failed)

/-- One transfer after another, until one goes wrong half-way. -/
def session (n : ℕ) : List Transfer → Prog Bus (List Outcome)
  | [] => pure []
  | t :: ts => do
    let o ← perform n t
    if o = .failed then
      pure [o]
    else do
      let os ← session n ts
      pure (o :: os)

/-! ## The block-level card -/

/-- The same transfer on the block-level card. -/
def Transfer.onCard (t : Transfer) (sd : Card) : Outcome × Card :=
  match t with
  | .read block =>
    let (ok, buffer, sd) := Device.sd_raw_read_block sd block zeroBlock
    (if ok then .done (List.ofFn buffer) else .refused, sd)
  | .write block source =>
    let (ok, sd) := Device.sd_raw_write_block sd block source
    (if ok then .done [] else .refused, sd)

def cardSession : List Transfer → Card → List Outcome × Card
  | [], sd => ([], sd)
  | t :: ts, sd =>
    let (o, sd) := t.onCard sd
    let (os, sd) := cardSession ts sd
    (o :: os, sd)

/-- The card of these blocks that fails where these transfers were refused. -/
def cardOf (size : UInt32) (B : ℕ → Block) (os : List Outcome) : Card :=
  ⟨size, B, os.map fun o => o == .refused⟩

/-- What a transfer that is done leaves the blocks as. -/
def Transfer.store (t : Transfer) (B : ℕ → Block) : ℕ → Block :=
  match t with
  | .read _ => B
  | .write block source => Function.update B block.toNat source

/-- What it returns. -/
def Transfer.bytes (t : Transfer) (B : ℕ → Block) : List UInt8 :=
  match t with
  | .read block => List.ofFn (B block.toNat)
  | .write _ _ => []

theorem onCard_done (t : Transfer) (size : UInt32) (B : ℕ → Block) (bytes : List UInt8)
    (os : List Outcome) :
    t.onCard (cardOf size B (.done bytes :: os))
      = (.done (t.bytes B), cardOf size (t.store B) os) := by
  cases t with
  | read block => rfl
  | write block source => rfl

theorem onCard_refused (t : Transfer) (size : UInt32) (B : ℕ → Block) (os : List Outcome) :
    t.onCard (cardOf size B (.refused :: os)) = (.refused, cardOf size B os) := by
  cases t with
  | read block => rfl
  | write block source => rfl

/-! ## Refinement -/

/-- What one transfer comes to. -/
def Came (sdhc : Bool) (B : ℕ → Block) (t : Transfer) (o : Outcome) (c : SpiCard) (sd : sd_raw_t) :
    Prop :=
  (o = .done (t.bytes B) ∧ Ready sdhc (t.store B) c sd)
    ∨ (o = .refused ∧ Ready sdhc B c sd)
    ∨ (o = .failed ∧ ∀ b, b ≠ t.block.toNat → c.blocks b = B b)

/-- **One transfer**: the step of the refinement. -/
theorem says_perform {sdhc : Bool} {B : ℕ → Block} (t : Transfer)
    (haddr : Addressable sdhc t.block) (n : ℕ) :
    Says (fun c bus => Ready sdhc B c bus.sd) (perform n t) fun o c bus =>
      Came sdhc B t o c bus.sd := by
  have hlast : ∀ (r : Bool × List UInt8) (P : SpiCard → sd_raw_t → Prop),
      (∀ c sd, P c sd → Came sdhc B t (if r.1 = true then .done r.2
        else if sd.status = t.refusal then .refused else .failed) c sd) →
      Says (fun c bus => P c bus.sd) (do
        let sd ← read Bus.sd
        pure (if r.1 = true then .done r.2 else if sd.status = t.refusal then .refused
          else .failed)) fun o c bus => Came sdhc B t o c bus.sd := by
    intro r P hP
    refine Talk.bind (R := fun sd c bus => sd = bus.sd ∧ P c bus.sd)
      (Talk.read fun c bus h => ⟨rfl, h⟩) fun sd => Talk.ret ?_
    rintro c bus ⟨rfl, h⟩
    exact hP c bus.sd h
  cases t with
  | read block =>
    refine Talk.bind (says_read_block haddr n) fun r =>
      hlast r (ReadOutcome sdhc B block r) ?_
    rintro c sd (⟨hr, h⟩ | ⟨hr, he, h⟩ | ⟨hr, he, hB⟩)
    · have hbytes : r.2 = (Transfer.read block).bytes B := by
        rw [hr, Transfer.bytes]
      refine Or.inl ⟨?_, h⟩
      rw [if_pos (by rw [hr]), hbytes]
    · refine Or.inr (Or.inl ⟨?_, h⟩)
      rw [hr, if_neg Bool.false_ne_true]
      exact if_pos he
    · refine Or.inr (Or.inr ⟨?_, fun b _ => by rw [hB]⟩)
      rw [hr, if_neg Bool.false_ne_true, he]
      exact if_neg (show SD_CARD_ERROR_GENERAL ≠ SD_CARD_ERROR_CMD17 by decide)
  | write block source =>
    have hwrite : Says (fun c bus => Ready sdhc B c bus.sd) (Transfer.run n (.write block source))
        fun r c bus => r.2 = [] ∧ WriteOutcome sdhc B block source r.1 c bus.sd :=
      Talk.bind (says_write_block haddr source n) fun written =>
        Talk.ret fun c bus h => ⟨rfl, h⟩
    refine Talk.bind hwrite fun r =>
      hlast r (fun c sd => r.2 = [] ∧ WriteOutcome sdhc B block source r.1 c sd) ?_
    rintro c sd ⟨hbytes, ⟨hr, h⟩ | ⟨hr, he, h⟩ | ⟨hr, he, torn, hB⟩⟩
    · refine Or.inl ⟨?_, h⟩
      rw [if_pos hr, hbytes]
      rfl
    · refine Or.inr (Or.inl ⟨?_, h⟩)
      rw [hr, if_neg Bool.false_ne_true]
      exact if_pos he
    · refine Or.inr (Or.inr ⟨?_, fun b hb => ?_⟩)
      · rw [hr, if_neg Bool.false_ne_true]
        exact if_neg he
      · rw [hB]
        exact Function.update_of_ne hb torn B

/-- What a session comes to: `before` is what was returned before the call that went
wrong, if one did, and up to there the block-level card has done the same. -/
def Refines (sdhc : Bool) (size : UInt32) (B : ℕ → Block) (ts : List Transfer)
    (os : List Outcome) (c : SpiCard) (sd : sd_raw_t) : Prop :=
  ∃ before : List Outcome,
    let card := cardSession (ts.take before.length) (cardOf size B before)
    card.1 = before
      ∧ ((os = before ∧ before.length = ts.length ∧ Ready sdhc card.2.blocks c sd)
        ∨ ∃ t, ts[before.length]? = some t ∧ os = before ++ [.failed]
          ∧ ∀ b, b ≠ t.block.toNat → c.blocks b = card.2.blocks b)

/-- One transfer before a session. -/
theorem Refines.cons {sdhc : Bool} {size : UInt32} {B B' : ℕ → Block} {t : Transfer}
    {ts : List Transfer} {o : Outcome} {os : List Outcome} {c : SpiCard} {sd : sd_raw_t}
    (ho : ∀ os, t.onCard (cardOf size B (o :: os)) = (o, cardOf size B' os))
    (h : Refines sdhc size B' ts os c sd) : Refines sdhc size B (t :: ts) (o :: os) c sd := by
  obtain ⟨before, hcard, hend⟩ := h
  have hstep : cardSession ((t :: ts).take (o :: before).length) (cardOf size B (o :: before))
      = (o :: (cardSession (ts.take before.length) (cardOf size B' before)).1,
        (cardSession (ts.take before.length) (cardOf size B' before)).2) := by
    rw [List.length_cons, List.take_succ_cons, cardSession, ho]
  refine ⟨o :: before, ?_, ?_⟩
  · rw [hstep, hcard]
  · rw [hstep]
    rcases hend with ⟨hos, hlen, hready⟩ | ⟨t', ht', hos, hblocks⟩
    · exact Or.inl ⟨by rw [hos], congrArg (· + 1) hlen, hready⟩
    · exact Or.inr ⟨t', by rw [List.length_cons, List.getElem?_cons_succ, ht'], by rw [hos]; rfl,
        hblocks⟩

/-- **Sessions**: by induction, one transfer at a time. -/
theorem says_session {sdhc : Bool} (size : UInt32) (n : ℕ) (ts : List Transfer)
    (haddr : ∀ t ∈ ts, Addressable sdhc t.block) (B : ℕ → Block) :
    Says (fun c bus => Ready sdhc B c bus.sd) (session n ts) fun os c bus =>
      Refines sdhc size B ts os c bus.sd := by
  induction ts generalizing B with
  | nil => exact Talk.ret fun c bus h => ⟨[], rfl, Or.inl ⟨rfl, rfl, h⟩⟩
  | cons t ts ih =>
    have hrest : ∀ B, Says (fun c bus => Ready sdhc B c bus.sd) (session n ts) fun os c bus =>
        Refines sdhc size B ts os c bus.sd := ih fun t' ht' => haddr t' (List.mem_cons_of_mem _ ht')
    refine Talk.bind (says_perform t (haddr t (List.mem_cons_self ..)) n) fun o => ?_
    refine Talk.ite (fun hfail => Talk.ret ?_) fun hok => ?_
    · rintro c bus (⟨ho, -⟩ | ⟨ho, -⟩ | ⟨-, hB⟩)
      · rw [hfail] at ho
        cases ho
      · rw [hfail] at ho
        cases ho
      · exact ⟨[], rfl, Or.inr ⟨t, rfl, by rw [hfail]; rfl, hB⟩⟩
    · have hdone : Says (fun c bus => o = .done (t.bytes B) ∧ Ready sdhc (t.store B) c bus.sd)
          (do let os ← session n ts; pure (o :: os)) fun os c bus =>
          Refines sdhc size B (t :: ts) os c bus.sd := by
        refine Talk.fact ((hrest B).bind fun os => Talk.ret (Q := fun _ _ _ => True)
          fun _ _ _ => trivial).adds fun ho => ?_
        refine Talk.bind (hrest (t.store B)) fun os => Talk.ret fun c bus h => ?_
        exact Refines.cons (fun os => by rw [ho, onCard_done]) h
      have hrefused : Says (fun c bus => o = .refused ∧ Ready sdhc B c bus.sd)
          (do let os ← session n ts; pure (o :: os)) fun os c bus =>
          Refines sdhc size B (t :: ts) os c bus.sd := by
        refine Talk.fact hdone.adds fun ho => ?_
        refine Talk.bind (hrest B) fun os => Talk.ret fun c bus h => ?_
        exact Refines.cons (fun os => by rw [ho, onCard_refused]) h
      refine (hdone.or_pre hrefused).pre ?_
      rintro c bus (h | h | ⟨ho, -⟩)
      · exact Or.inl h
      · exact Or.inr h
      · exact absurd ho hok

/-! ## Following a run -/

/-- The answer `r` to a command, where the card may give it. -/
def obey (c : SpiCard) (f : Frame) (r : UInt8) : Option SpiCard :=
  match c.mode with
  | .off =>
    if f.command = CMD0 ∧ f.sound = true ∧ r = 1 then
      some { c with app := false, failed := false, mode := .idle, phase := .listening [] }
    else none
  | .idle =>
    if f.command = CMD8 ∧ f.sound = true ∧ r = 1 then
      some (c.done (after [0, 0, 1, f.arg.toUInt8]))
    else if f.command = CMD55 ∧ r = 1 then
      some { c with app := true, phase := .listening [] }
    else if f.command = ACMD41 ∧ c.app = true ∧ f.arg &&& 0x40000000 ≠ 0 ∧ r = 0 then
      some { c with app := false, mode := .ready, phase := .listening [] }
    else none
  | .ready =>
    if f.command = CMD58 ∧ r = 0 then
      some (c.done (after [if c.sdhc = true then 0xc0 else 0x80, 0, 0, 0]))
    else if f.command = CMD9 ∧ r = 0 then
      some (c.done (.fetching (List.ofFn c.csd ++ [0, 0])))
    else if f.command = CMD13 ∧ c.failed = false ∧ r = 0 then
      some { c with app := false, failed := false, phase := after [0] }
    else if f.command = CMD17 ∧ r = 0 then
      some (c.done (.fetching (List.ofFn (c.blocks (c.addressed f.arg)) ++ [0, 0])))
    else if f.command = CMD24 ∧ r = 0 then
      some (c.done (.awaiting (c.addressed f.arg)))
    else none

/-- A byte each way with a card that does as it is told. -/
def react (c : SpiCard) (sent received : UInt8) : Option SpiCard :=
  match c.phase with
  | .listening bytes =>
    if received = 0xff then some (c.to (
      if bytes = [] ∧ sent &&& 0xc0 ≠ 0x40 then .listening []
      else if bytes.length < 5 then .listening (bytes ++ [sent])
      else .answering (frame (bytes ++ [sent])) 8))
    else none
  | .answering f left =>
    if received &&& 0x80 ≠ 0 then
      if 0 < left then some (c.to (.answering f (left - 1))) else none
    else obey c f received
  | .sending byte rest => if received = byte then some (c.to (after rest)) else none
  | .fetching bytes =>
    if received = 0xff then some c
    else if received = DATA_START_BLOCK then some (c.to (after bytes)) else none
  | .awaiting block =>
    if received = 0xff then some (c.to (
      if sent = 0xff then .awaiting block
      else if sent = DATA_START_BLOCK then .receiving block []
      else .listening []))
    else none
  | .receiving block bytes =>
    if received = 0xff then some (c.to (
      if bytes.length < 513 then .receiving block (bytes ++ [sent])
      else .judging block (blockOf bytes)))
    else none
  | .judging block source =>
    some (c.to (
      if received &&& DATA_RES_MASK = DATA_RES_ACCEPTED then .programming block source
      else .listening []))
  | .programming block source =>
    if received = 0xff then
      some { c with blocks := Function.update c.blocks block source, phase := .listening [] }
    else some c

/-- A run followed, event by event. -/
def follow : SpiCard → List Event → Option SpiCard
  | c, [] => some c
  | c, .write pin high :: es => follow (if pin = c.cs then c.select (!high) else c) es
  | c, .transfer sent received :: es =>
    if c.selected then
      match react c sent received with
      | some c' => follow c' es
      | none => none
    else follow c es

theorem obey_obeys {c c' : SpiCard} {f : Frame} {r : UInt8} (h : obey c f r = some c') :
    Obeys c f r c' := by
  rw [obey] at h
  split at h
  · next hm =>
    split at h
    · next hc =>
      obtain ⟨hf, hs, rfl⟩ := hc
      cases h
      exact .goIdle hf hs
    · cases h
  · next hm =>
    split at h
    · next hc =>
      obtain ⟨hf, hs, rfl⟩ := hc
      cases h
      exact .interface hf hs hm 0 0 1
    · split at h
      · next hc =>
        obtain ⟨hf, rfl⟩ := hc
        cases h
        exact .appIdle hf hm
      · split at h
        · next hc =>
          obtain ⟨hf, ha, harg, rfl⟩ := hc
          cases h
          exact .initialized hf ha (by rw [hm]; exact Mode.noConfusion) fun _ _ => harg
        · cases h
  · next hm =>
    split at h
    · next hc =>
      obtain ⟨hf, rfl⟩ := hc
      cases h
      refine .ocr hf hm _ 0 0 0 ?_
      split
      · next hs => exact iff_of_true (by decide) hs
      · next hs => exact iff_of_false (by decide) hs
    · split at h
      · next hc =>
        obtain ⟨hf, rfl⟩ := hc
        cases h
        exact .register hf hm 0 0
      · split at h
        · next hc =>
          obtain ⟨hf, hfail, rfl⟩ := hc
          cases h
          exact .status hf hm 0 fun htrue => absurd (hfail.symm.trans htrue) Bool.false_ne_true
        · split at h
          · next hc =>
            obtain ⟨hf, rfl⟩ := hc
            cases h
            exact .read hf hm 0 0
          · split at h
            · next hc =>
              obtain ⟨hf, rfl⟩ := hc
              cases h
              exact .write hf hm
            · cases h

/-- What that card does a card may do. -/
theorem react_exchange {c c' : SpiCard} {sent received : UInt8}
    (h : react c sent received = some c') : Exchange c sent received c' := by
  rw [react] at h
  rw [Exchange]
  cases hp : c.phase with
  | listening bytes =>
    simp only [hp] at h
    split at h
    · next hr => exact ⟨hr, (Option.some.inj h).symm⟩
    · cases h
  | answering f left =>
    simp only [hp] at h
    split at h
    · next hr =>
      split at h
      · next hleft => exact Or.inl ⟨hr, hleft, (Option.some.inj h).symm⟩
      · cases h
    · exact Or.inr (Or.inr (obey_obeys h))
  | sending byte rest =>
    simp only [hp] at h
    split at h
    · next hr => exact ⟨hr, (Option.some.inj h).symm⟩
    · cases h
  | fetching bytes =>
    simp only [hp] at h
    split at h
    · next hr => exact Or.inl ⟨hr, (Option.some.inj h).symm⟩
    · split at h
      · next hr => exact Or.inr (Or.inl ⟨hr, (Option.some.inj h).symm⟩)
      · cases h
  | awaiting block =>
    simp only [hp] at h
    split at h
    · next hr => exact ⟨hr, (Option.some.inj h).symm⟩
    · cases h
  | receiving block bytes =>
    simp only [hp] at h
    split at h
    · next hr => exact ⟨hr, (Option.some.inj h).symm⟩
    · cases h
  | judging block source =>
    simp only [hp] at h
    exact (Option.some.inj h).symm
  | programming block source =>
    simp only [hp] at h
    split at h
    · next hr => exact Or.inr ⟨hr, Or.inl (Option.some.inj h).symm⟩
    · next hr => exact Or.inl ⟨hr, (Option.some.inj h).symm⟩

/-- **A run that can be followed is one the card can take part in.** -/
theorem follow_plays {es : List Event} {c c' : SpiCard} (h : follow c es = some c') :
    Plays Step es c c' := by
  induction es generalizing c with
  | nil => exact Option.some.inj h
  | cons e es ih =>
    cases e with
    | write pin high => exact ⟨_, rfl, ih h⟩
    | transfer sent received =>
      rw [follow] at h
      split at h
      · next hsel =>
        split at h
        · next d hd =>
          refine ⟨d, ?_, ih h⟩
          rw [Step, if_pos hsel]
          exact react_exchange hd
        · cases h
      · next hsel =>
        refine ⟨c, ?_, ih h⟩
        rw [Step, if_neg hsel]
        exact Or.inl rfl

/-! ## The results -/

/-- **Initialization**: whatever state the card is in, and however it takes its time,
when `sd_raw_initialize` returns true the card is ready with its blocks as they
were, and the driver addresses it the way it wants. -/
theorem initialize_ready {n : ℕ} {pinCs : UInt8} {c c' : SpiCard} {bus bus' : Bus}
    {es : List Event} (hwired : c.cs = pinCs) (hquiet : c.phase = .listening [])
    (hidle : Idle bus) (hrun : sd_raw_initialize n pinCs bus = (some true, bus'))
    (htrace : bus'.trace = bus.trace ++ es) (hplays : Plays Step es c c') :
    Ready c.sdhc c.blocks c' bus'.sd :=
  ( says_initialize n pinCs hwired hquiet).tells ⟨rfl, hidle⟩ hrun htrace hplays rfl

/-- A new card on pin 4, every block full of sevens. -/
def newCard : SpiCard where
  cs := 4
  sdhc := true
  csd := fun _ => 0
  blocks := fun _ _ => 7
  selected := false
  mode := .off
  app := false
  failed := false
  phase := .listening []

/-- What it says while it is initialized. -/
def newCardBytes (i : ℕ) : UInt8 :=
  if i = 17 ∨ i = 25 ∨ i = 28 ∨ i = 37 then 1
  else if i = 29 then 0xaa
  else if i = 54 then 0xc0
  else if i = 26 ∨ i = 27 ∨ i = 45 ∨ i = 53 ∨ i = 55 ∨ i = 56 ∨ i = 57 then 0
  else 0xff

set_option maxRecDepth 100000 in
theorem newCard_follows : ( sd_raw_initialize 1 4 (zeroed newCardBytes fun _ => 0)).1 = some true
    ∧ (follow newCard ( sd_raw_initialize 1 4 (zeroed newCardBytes fun _ => 0)).2.trace).isSome
      = true := by
  decide +kernel

theorem initialize_ready_new : ∃ c' bus',
    sd_raw_initialize 1 4 (zeroed newCardBytes fun _ => 0) = (some true, bus')
      ∧ Ready true (fun _ _ => 7) c' bus'.sd := by
  obtain ⟨hok, hfollow⟩ := newCard_follows
  generalize hrun : sd_raw_initialize 1 4 (zeroed newCardBytes fun _ => 0) = run at hok hfollow ⊢
  obtain ⟨ok, bus'⟩ := run
  obtain ⟨c', hc⟩ := Option.isSome_iff_exists.mp hfollow
  have hdone : (ok, bus') = (some true, bus') := congrArg (fun ok => (ok, bus')) hok
  exact ⟨c', bus', hdone, initialize_ready (c := newCard) rfl rfl (show Idle (zeroed _ _) from rfl)
    (hrun.trans hdone) (List.nil_append _).symm (follow_plays hc)⟩

/-- **The driver refines the block-level card**: reads and writes over the wires return
what they return there, refusals being the faults. -/
theorem session_refines {sdhc : Bool} {B : ℕ → Block} {n : ℕ} {ts : List Transfer}
    {os : List Outcome} {c c' : SpiCard} {bus bus' : Bus} {es : List Event} (size : UInt32)
    (hready : Ready sdhc B c bus.sd) (haddr : ∀ t ∈ ts, Addressable sdhc t.block)
    (hrun : session n ts bus = (some os, bus')) (htrace : bus'.trace = bus.trace ++ es)
    (hplays : Plays Step es c c') : Refines sdhc size B ts os c' bus'.sd :=
  (says_session size n ts haddr B).tells hready hrun htrace hplays

/-- What the card says while a block is read. -/
def readingBytes (i : ℕ) : UInt8 :=
  if i = 7 ∨ 522 ≤ i then 0 else if i = 9 then 0xfe else if 10 ≤ i then 7 else 0xff

/-- The driver, once the card is ready. -/
def readyBus : Bus :=
  ⟨⟨4, 0, SD_CARD_TYPE_SDHC, 0, false, 0⟩, readingBytes, fun _ => 0, 0, 0, [], []⟩

set_option maxRecDepth 100000 in
theorem reading_follows : (session 2 [.read 3] readyBus).1.isSome = true
    ∧ (follow { newCard with mode := .ready } (session 2 [.read 3] readyBus).2.trace).isSome
      = true := by
  decide +kernel

theorem session_refines_read : ∃ os c' bus', session 2 [.read 3] readyBus = (some os, bus')
    ∧ Refines true 0 (fun _ _ => 7) [.read 3] os c' bus'.sd := by
  obtain ⟨hsome, hfollow⟩ := reading_follows
  generalize hrun : session 2 [.read 3] readyBus = run at hsome hfollow ⊢
  obtain ⟨r, bus'⟩ := run
  obtain ⟨os, rfl⟩ := Option.isSome_iff_exists.mp hsome
  obtain ⟨c', hc⟩ := Option.isSome_iff_exists.mp hfollow
  have hready : Ready true (fun _ _ => 7) { newCard with mode := .ready } readyBus.sd :=
    ⟨rfl, rfl, rfl, rfl, rfl, rfl, iff_of_true rfl rfl⟩
  exact ⟨os, c', bus', rfl, session_refines 0 hready (fun _ _ => Or.inl rfl) hrun
    (List.nil_append _).symm (follow_plays hc)⟩

end Fkfs.Spi
