import Studix.Devices.Pata

/-!
# The search for a drive

`check_drive` and `init_ata` of `src/devices/pata.c`. The four places for a drive are probed one
after the other, the master before the slave and the primary bus before the secondary one, until one
answers the command `IDENTIFY` with data. A bus without drives floats: every read of its status is
`0xFF`. The driver gives up when both buses float. When one of them does, the first probe on that
bus waits for the busy flag of a status that never changes.

## Main definitions

* `checkDrive`, `initAta`: the driver.
* `Drive`, `Bus`, `Ide`, `idePorts`: drives, and what they do behind the ports of two buses.
* `Search`, `search`: what the search comes to.

## Main results

* `pollWhile_spec`: a loop that polls the status ends.
* `checkDrive_spec`: the probe of one place.
* `initAta_selects`: the driver selects the first drive, with its number of sectors.
* `initAta_hangs_iff`: when it hangs.
-/

namespace Studix.Pata

/-! ### The driver -/

/-- `PRIMARY_BASE`. -/
def primaryBase : ℕ := 0x1F0

/-- `SECONDARY_BASE`. -/
def secondaryBase : ℕ := 0x170

/-- `IDENTIFY`. -/
def identify : Byte := 0xEC

/-- `ERR`. -/
def err : Byte := 1 <<< 0

/-- `DRQ`. -/
def drq : Byte := 1 <<< 3

/-- `MAX_28LBA_SECTORS`. -/
def max28LbaSectors : ℕ := 60

/-- The static variables of the driver: `sel_base_port` and `sel_master_or_slave`, and
`max_sector`. -/
structure DriverState where
  sel : Selection
  maxSector : BitVec 32

/-- The static variables when the kernel starts. -/
def DriverState.boot : DriverState := ⟨⟨0, 0⟩, 0⟩

section

variable {σ : Type} (io : Ports σ)

/-- A loop `while (cond(stat)) stat = read_stat(base);`. -/
def pollWhile (cond : Byte → Bool) (base : ℕ) : ℕ → Byte → σ → Except Stop (Byte × σ)
  | 0, _, _ => .error .unfinished
  | fuel + 1, stat, s =>
    if cond stat then
      let (stat, s) := readStat io base s
      pollWhile cond base fuel stat s
    else .ok (stat, s)

/-- The writes of `check_drive`. -/
def sendIdentify (base : ℕ) (masterOrSlave : Byte) (s : σ) : σ :=
  let s := io.outb s (base + Port.driveSelect) masterOrSlave
  let s := io.outb s (base + Port.sectorCount) 0
  let s := io.outb s (base + Port.lbaLow) 0
  let s := io.outb s (base + Port.lbaMid) 0
  let s := io.outb s (base + Port.lbaHigh) 0
  io.outb s (base + Port.comStat) identify

/-- The end of `check_drive`: the 256 words of data are read. -/
def readIdentity (base : ℕ) (masterOrSlave : Byte) (s : σ) : DriverState × σ :=
  let (driveData, s) := repInsw io (base + Port.data) 256 0 (fun _ => 0) s
  (⟨⟨base, masterOrSlave⟩, (driveData max28LbaSectors).setWidth 32 |||
    (driveData (max28LbaSectors + 1)).setWidth 32 <<< 16⟩, s)

/-- `check_drive`. -/
def checkDrive (fuel base : ℕ) (masterOrSlave : Byte) (d : DriverState) (s : σ) :
    Except Stop (DriverState × σ) :=
  if d.sel.basePort ≠ 0 then .ok (d, s)
  else do
    let (stat, s) := readStat io base (sendIdentify io base masterOrSlave s)
    if stat = 0 then .ok (d, s)
    else do
      let (stat, s) ← pollWhile io (fun stat => stat &&& bsy ≠ 0) base fuel stat s
      let (stat, s) ←
        pollWhile io (fun stat => stat &&& drq = 0 ∧ stat &&& err = 0) base fuel stat s
      if stat &&& err ≠ 0 then .ok (d, s) else .ok (readIdentity io base masterOrSlave s)

/-- `init_ata`, up to its messages. -/
def initAta (fuel : ℕ) (d : DriverState) (s : σ) : Except Stop (DriverState × σ) := do
  let (priStatus, s) := io.inb s (primaryBase + Port.comStat)
  let (secStatus, s) := io.inb s (secondaryBase + Port.comStat)
  if priStatus = 0xFF ∧ secStatus = 0xFF then .ok (d, s)
  else do
    let (d, s) ← checkDrive io fuel primaryBase selMaster d s
    let (d, s) ← checkDrive io fuel primaryBase selSlave d s
    let (d, s) ← checkDrive io fuel secondaryBase selMaster d s
    checkDrive io fuel secondaryBase selSlave d s

end

/-! ### Drives on two buses -/

/-- The answer of a drive to `IDENTIFY`: it is busy for a number of reads of the status, then it
takes a number of reads to decide, and then it has words to read or reports an error. -/
structure Reply where
  busy : ℕ
  wait : ℕ
  words : Option (List Word)

namespace Reply

/-- The last status of an answer. -/
def final : Option (List Word) → Byte
  | none => 0x41
  | some [] => 0x40
  | some (_ :: _) => 0x48

def status (r : Reply) : Byte :=
  if 0 < r.busy then 0x80 else if 0 < r.wait then 0x40 else final r.words

/-- The status has been read. -/
def tick (r : Reply) : Reply :=
  if 0 < r.busy then { r with busy := r.busy - 1 } else { r with wait := r.wait - 1 }

end Reply

/-- What is in one of the places for a drive: nothing, an ATA drive with its identity, or a drive
that reports an error. -/
inductive Place
  | absent
  | ata (busy wait : ℕ) (identity : ℕ → Word)
  | other (busy wait : ℕ)

/-- The answer to `IDENTIFY`. -/
def Place.reply : Place → Option Reply
  | absent => none
  | ata busy wait identity => some ⟨busy, wait, some ((List.range 256).map identity)⟩
  | other busy wait => some ⟨busy, wait, none⟩

/-- A bus: it floats, or it has two places, of which one is selected. -/
structure Bus where
  floating : Bool
  place : Bool → Place
  selected : Bool
  reply : Option Reply

namespace Bus

def status (b : Bus) : Byte :=
  if b.floating then 0xFF
  else match b.reply with
    | some r => r.status
    | none => match b.place b.selected with
      | .absent => 0
      | _ => 0x40

def tick (b : Bus) : Bus := { b with reply := b.reply.map Reply.tick }

/-- A write to a register. -/
def outb (b : Bus) (p : ℕ) (v : Byte) : Bus :=
  if p = Port.driveSelect then { b with selected := v.getLsbD 4, reply := none }
  else if p = Port.comStat ∧ v = identify then { b with reply := (b.place b.selected).reply }
  else b

/-- A read of the data port. -/
def inw (b : Bus) : Word × Bus :=
  match b.reply with
  | some ⟨0, 0, some (w :: ws)⟩ => (w, { b with reply := some ⟨0, 0, some ws⟩ })
  | _ => (0xFFFF, b)

end Bus

/-- Two buses, the primary one for `false`. -/
abbrev Ide := Bool → Bus

/-- The base of the ports of a bus. -/
def baseOf (i : Bool) : ℕ := if i then secondaryBase else primaryBase

/-- The bus and the register behind a port. -/
def busOf (port : ℕ) : Option (Bool × ℕ) :=
  if primaryBase ≤ port ∧ port < primaryBase + 8 then some (false, port - primaryBase)
  else if secondaryBase ≤ port ∧ port < secondaryBase + 8 then some (true, port - secondaryBase)
  else none

/-- The ports of the two buses. -/
def idePorts : Ports Ide where
  outb s port v := match busOf port with
    | some (i, p) => Function.update s i ((s i).outb p v)
    | none => s
  inb s port := match busOf port with
    | some (i, 7) => ((s i).status, Function.update s i (s i).tick)
    | _ => (0, s)
  inw s port := match busOf port with
    | some (i, 0) => ((s i).inw.1, Function.update s i (s i).inw.2)
    | _ => (0, s)

/-! ### What the search comes to -/

/-- The static variables for a drive. -/
def selected (i slave : Bool) (identity : ℕ → Word) : DriverState :=
  ⟨⟨baseOf i, if slave then selSlave else selMaster⟩,
    (identity 60).setWidth 32 ||| (identity 61).setWidth 32 <<< 16⟩

/-- The search ends with the static variables, or hangs. -/
inductive Search
  | ends (d : DriverState)
  | hangs

/-- The first drive of a list of places, up to the first floating bus. -/
def probe (s : Ide) : List (Bool × Bool) → Search
  | [] => .ends .boot
  | (i, slave) :: places =>
    if (s i).floating then .hangs
    else match (s i).place slave with
      | .ata _ _ identity => .ends (selected i slave identity)
      | _ => probe s places

/-- The four places, in the order in which they are probed. -/
def places : List (Bool × Bool) := [(false, false), (false, true), (true, false), (true, true)]

/-- What the search for a drive comes to. -/
def search (s : Ide) : Search :=
  if (s false).floating ∧ (s true).floating then .ends .boot
  else probe s places

/-! ### Polling -/

section

variable {σ : Type} {io : Ports σ} {cond : Byte → Bool} {base fuel : ℕ} {s : σ} {stat : Byte}
  {P : σ → Prop} {Q : Byte → σ → Prop}

/-- **A loop that polls the status ends** when the number of reads that it still has to wait for
decreases. -/
theorem pollWhile_spec (rank : σ → ℕ)
    (hread : ∀ s, P s → P (readStat io base s).2 ∧ Q (readStat io base s).1 (readStat io base s).2 ∧
      (cond (readStat io base s).1 = true → rank (readStat io base s).2 < rank s))
    (hP : P s) (hQ : Q stat s) : ∃ bound stat' s',
      (∀ fuel, bound ≤ fuel → pollWhile io cond base fuel stat s = .ok (stat', s')) ∧
        cond stat' = false ∧ P s' ∧ Q stat' s' := by
  induction hrank : rank s using Nat.strong_induction_on generalizing s stat with
  | _ n ih =>
    have hexit : ∀ stat s, cond stat = false → ∀ fuel, 1 ≤ fuel →
        pollWhile io cond base fuel stat s = .ok (stat, s) := by
      intro stat s hcond fuel hfuel
      obtain ⟨fuel, rfl⟩ := Nat.exists_eq_add_of_le' hfuel
      rw [pollWhile, if_neg (by simp [hcond])]
    cases hcond : cond stat with
    | false => exact ⟨1, stat, s, hexit stat s hcond, hcond, hP, hQ⟩
    | true =>
      obtain ⟨hP', hQ', hless⟩ := hread s hP
      have hnext : ∀ fuel, pollWhile io cond base (fuel + 1) stat s =
          pollWhile io cond base fuel (readStat io base s).1 (readStat io base s).2 := by
        intro fuel
        rw [pollWhile, if_pos hcond]
      cases hcond' : cond (readStat io base s).1 with
      | false =>
        refine ⟨2, _, _, fun fuel hfuel => ?_, hcond', hP', hQ'⟩
        obtain ⟨fuel, rfl⟩ := Nat.exists_eq_add_of_le' hfuel
        rw [hnext, hexit _ _ hcond' _ (by omega)]
      | true =>
        obtain ⟨bound, stat', s', hrun, hend⟩ := ih _ (hrank ▸ hless hcond') hP' hQ' rfl
        refine ⟨bound + 1, stat', s', fun fuel hfuel => ?_, hend⟩
        obtain ⟨fuel, rfl⟩ : ∃ k, fuel = k + 1 := ⟨fuel - 1, by omega⟩
        rw [hnext, hrun fuel (by omega)]

/-- More fuel does not change a result. -/
theorem pollWhile_mono {fuel' : ℕ} {r : Byte × σ} (hle : fuel ≤ fuel')
    (h : pollWhile io cond base fuel stat s = .ok r) :
    pollWhile io cond base fuel' stat s = .ok r := by
  induction fuel generalizing fuel' stat s with
  | zero => cases h
  | succ fuel ih =>
    obtain ⟨fuel', rfl⟩ : ∃ k, fuel' = k + 1 := ⟨fuel' - 1, by omega⟩
    rw [pollWhile] at h ⊢
    split_ifs at h ⊢ with hcond
    · exact ih (Nat.le_of_succ_le_succ hle) h
    · exact h

theorem checkDrive_mono {fuel' : ℕ} {v : Byte} {d : DriverState} {r : DriverState × σ}
    (hle : fuel ≤ fuel') (h : checkDrive io fuel base v d s = .ok r) :
    checkDrive io fuel' base v d s = .ok r := by
  rw [checkDrive] at h ⊢
  split_ifs at h ⊢ with hfound
  · exact h
  · dsimp only at h ⊢
    split_ifs at h ⊢ with hstat
    · exact h
    · obtain ⟨r₁, hfirst, h⟩ := except_bind_eq_ok.mp h
      obtain ⟨r₂, hsecond, h⟩ := except_bind_eq_ok.mp h
      rw [pollWhile_mono hle hfirst, except_ok_bind, pollWhile_mono hle hsecond, except_ok_bind]
      exact h

/-- **A loop that polls a status that never changes** does not end. -/
theorem pollWhile_unfinished (hread : ∀ s, P s → P (readStat io base s).2 ∧
      cond (readStat io base s).1 = true) (hP : P s) (hstat : cond stat = true) (fuel : ℕ) :
    pollWhile io cond base fuel stat s = .error .unfinished := by
  induction fuel generalizing s stat with
  | zero => rfl
  | succ fuel ih =>
    rw [pollWhile, if_pos hstat]
    exact ih (hread s hP).1 (hread s hP).2

end

/-! ### The ports of the buses -/

section

variable {s s' s'' : Ide} {i slave : Bool} {p : ℕ}

theorem busOf_base (i : Bool) (hp : p < 8) : busOf (baseOf i + p) = some (i, p) := by
  rw [busOf]
  cases i
  · rw [if_pos ⟨Nat.le_add_right _ p, Nat.add_lt_add_left hp _⟩]
    simp [baseOf]
  · have hprimary : ¬(primaryBase ≤ baseOf true + p ∧ baseOf true + p < primaryBase + 8) := by
      simp only [primaryBase, secondaryBase, baseOf, if_true]
      omega
    rw [if_neg hprimary, if_pos ⟨Nat.le_add_right _ p, Nat.add_lt_add_left hp _⟩]
    simp [baseOf]

theorem outb_base (s : Ide) (i : Bool) (hp : p < 8) (v : Byte) :
    idePorts.outb s (baseOf i + p) v = Function.update s i ((s i).outb p v) := by
  simp only [idePorts, busOf_base i hp]

theorem inb_base (s : Ide) (i : Bool) : idePorts.inb s (baseOf i + Port.comStat) =
    ((s i).status, Function.update s i (s i).tick) := by
  have hbus := busOf_base (p := Port.comStat) i (by decide)
  simp only [idePorts, hbus]
  rfl

theorem inw_base (s : Ide) (i : Bool) : idePorts.inw s (baseOf i + Port.data) =
    ((s i).inw.1, Function.update s i (s i).inw.2) := by
  have hbus := busOf_base (p := Port.data) i (by decide)
  simp only [idePorts, hbus]
  rfl

/-- The five reads of the status are those of one bus. -/
theorem readStat_base (s : Ide) (i : Bool) : readStat idePorts (baseOf i) s =
    ((Bus.tick^[4] (s i)).status, Function.update s i (Bus.tick^[5] (s i))) := by
  simp only [readStat, inb_base, Function.update_self, Function.update_idem]
  rfl

/-- The same drives on the same buses. -/
def SameDrives (s s' : Ide) : Prop :=
  ∀ i, (s' i).floating = (s i).floating ∧ (s' i).place = (s i).place

theorem SameDrives.refl (s : Ide) : SameDrives s s := fun _ => ⟨rfl, rfl⟩

theorem SameDrives.trans (h : SameDrives s s') (h' : SameDrives s' s'') : SameDrives s s'' :=
  fun i => ⟨(h' i).1.trans (h i).1, (h' i).2.trans (h i).2⟩

theorem SameDrives.update {b : Bus} (h : SameDrives s s') (hfloating : b.floating = (s' i).floating)
    (hplace : b.place = (s' i).place) : SameDrives s (Function.update s' i b) := by
  intro j
  rcases eq_or_ne j i with rfl | hne
  · rw [Function.update_self]
    exact ⟨hfloating.trans (h j).1, hplace.trans (h j).2⟩
  · rw [Function.update_of_ne hne]
    exact h j

theorem tick_iterate (b : Bus) (n : ℕ) :
    Bus.tick^[n] b = { b with reply := b.reply.map Reply.tick^[n] } := by
  induction n with
  | zero => simp
  | succ n ih =>
    rw [Function.iterate_succ_apply', ih, Bus.tick]
    simp only [Option.map_map, ← Function.iterate_succ']

theorem reply_tick_iterate (r : Reply) (n : ℕ) :
    Reply.tick^[n] r = ⟨r.busy - n, r.wait - (n - r.busy), r.words⟩ := by
  induction n with
  | zero => simp
  | succ n ih =>
    rw [Function.iterate_succ_apply', ih, Reply.tick]
    split_ifs with hbusy
    all_goals
      simp only [Reply.mk.injEq, and_true] at hbusy ⊢
      omega

/-! ### The probe of one place -/

/-- The byte that selects a place. -/
def selectByte (slave : Bool) : Byte := if slave then selSlave else selMaster

/-- The state after `IDENTIFY` has been sent to a place. -/
theorem sendIdentify_eq (s : Ide) (i slave : Bool) :
    sendIdentify idePorts (baseOf i) (selectByte slave) s = Function.update s i
      { s i with selected := slave, reply := ((s i).place slave).reply } := by
  have hslave : (selectByte slave)[4] = slave := by cases slave <;> decide
  simp only [sendIdentify, outb_base s i (p := Port.driveSelect) (by decide),
    outb_base _ i (p := Port.sectorCount) (by decide), outb_base _ i (p := Port.lbaLow) (by decide),
    outb_base _ i (p := Port.lbaMid) (by decide), outb_base _ i (p := Port.lbaHigh) (by decide),
    outb_base _ i (p := Port.comStat) (by decide), Function.update_self, Function.update_idem]
  simp [Bus.outb, Port.driveSelect, Port.sectorCount, Port.lbaLow, Port.lbaMid, Port.lbaHigh,
    Port.comStat, hslave]

/-- The bus waits for an answer with the words `ws`. -/
structure Answering (s₀ : Ide) (i : Bool) (ws : Option (List Word)) (s : Ide) : Prop where
  same : SameDrives s₀ s
  alive : (s i).floating = false
  reply : ∃ busy wait, (s i).reply = some ⟨busy, wait, ws⟩

/-- A status that was read on the way to an answer. -/
def OnTheWay (i : Bool) (ws : Option (List Word)) (stat : Byte) (s : Ide) : Prop :=
  stat = 0x80 ∨ stat = 0x40 ∨ stat = Reply.final ws ∧ (s i).reply = some ⟨0, 0, ws⟩

/-- The number of reads until the bus is not busy, and until there is an answer. -/
def busyLeft (i : Bool) (s : Ide) : ℕ := match (s i).reply with
  | some r => r.busy
  | none => 0

def readsLeft (i : Bool) (s : Ide) : ℕ := match (s i).reply with
  | some r => r.busy + r.wait
  | none => 0

variable {ws : Option (List Word)} {s₀ : Ide}

/-- The status that is read on the way to an answer, and the reply afterwards. -/
theorem readStat_reply {busy wait : ℕ} (halive : (s i).floating = false)
    (hreply : (s i).reply = some ⟨busy, wait, ws⟩) :
    (readStat idePorts (baseOf i) s).1 = (⟨busy - 4, wait - (4 - busy), ws⟩ : Reply).status ∧
      (readStat idePorts (baseOf i) s).2 = Function.update s i
        { s i with reply := some ⟨busy - 5, wait - (5 - busy), ws⟩ } := by
  have hafter : ∀ n, Bus.tick^[n] (s i) =
      { s i with reply := some ⟨busy - n, wait - (n - busy), ws⟩ } := by
    intro n
    rw [tick_iterate, hreply, Option.map_some, reply_tick_iterate]
  rw [readStat_base, hafter, hafter]
  refine ⟨?_, rfl⟩
  simp only [Bus.status, halive, Bool.false_eq_true, if_false]

/-- The last status is an error or a request, and in any case not busy. -/
theorem final_eq (hws : ws ≠ some []) : Reply.final ws = 0x41 ∨ Reply.final ws = 0x48 := by
  rcases ws with _ | _ | ⟨w, ws⟩
  · exact .inl rfl
  · exact absurd rfl hws
  · exact .inr rfl

theorem final_ne_busy (ws : Option (List Word)) : Reply.final ws ≠ 0x80 := by
  by_cases hws : ws = some []
  · subst hws
    decide
  · rcases final_eq hws with h | h <;> rw [h] <;> decide

/-- **One read of the status** on the way to an answer. -/
theorem Answering.readStat (h : Answering s₀ i ws s) :
    Answering s₀ i ws (readStat idePorts (baseOf i) s).2 ∧
      OnTheWay i ws (readStat idePorts (baseOf i) s).1 (readStat idePorts (baseOf i) s).2 ∧
      ((readStat idePorts (baseOf i) s).1 = 0x80 →
        busyLeft i (readStat idePorts (baseOf i) s).2 < busyLeft i s) ∧
      ((readStat idePorts (baseOf i) s).1 = 0x80 ∨ (readStat idePorts (baseOf i) s).1 = 0x40 →
        ws ≠ some [] → readsLeft i (readStat idePorts (baseOf i) s).2 < readsLeft i s) := by
  obtain ⟨busy, wait, hreply⟩ := h.reply
  obtain ⟨hstat, hnext⟩ := readStat_reply h.alive hreply
  have hafter : ((Studix.Pata.readStat idePorts (baseOf i) s).2 i).reply =
      some ⟨busy - 5, wait - (5 - busy), ws⟩ := by
    rw [hnext, Function.update_self]
  have hsame : SameDrives s₀ (Studix.Pata.readStat idePorts (baseOf i) s).2 :=
    hnext ▸ h.same.update rfl rfl
  have halive : ((Studix.Pata.readStat idePorts (baseOf i) s).2 i).floating = false := by
    rw [hnext, Function.update_self]
    exact h.alive
  generalize (Studix.Pata.readStat idePorts (baseOf i) s).2 = s' at *
  rw [hstat]
  simp only [Reply.status]
  refine ⟨⟨hsame, halive, _, _, hafter⟩, ?_, ?_, ?_⟩
  · simp only [OnTheWay, hafter]
    split_ifs with hbusy hwait
    · exact .inl rfl
    · exact .inr (.inl rfl)
    · refine .inr (.inr ⟨rfl, ?_⟩)
      simp only [Option.some.injEq, Reply.mk.injEq, and_true]
      omega
  · simp only [busyLeft, hreply, hafter]
    split_ifs with hbusy hwait
    · omega
    · exact fun h => absurd h (by decide)
    · exact fun h => absurd h (final_ne_busy ws)
  · intro hstat' hne
    simp only [readsLeft, hreply, hafter]
    split_ifs at hstat' with hbusy hwait
    · omega
    · omega
    · rcases final_eq hne with hfinal | hfinal <;> rw [hfinal] at hstat' <;>
        exact absurd hstat' (by decide)

theorem OnTheWay.eq_of_busy {stat : Byte} (h : OnTheWay i ws stat s) (hws : ws ≠ some [])
    (hbusy : decide (stat &&& bsy ≠ 0) = true) : stat = 0x80 := by
  rcases h with rfl | rfl | ⟨rfl, -⟩
  · rfl
  · exact absurd hbusy (by decide)
  · rcases final_eq hws with h | h <;> rw [h] at hbusy <;> exact absurd hbusy (by decide)

theorem OnTheWay.eq_of_waiting {stat : Byte} (h : OnTheWay i ws stat s) (hws : ws ≠ some [])
    (hwaiting : decide (stat &&& drq = 0 ∧ stat &&& err = 0) = true) :
    stat = 0x80 ∨ stat = 0x40 := by
  rcases h with rfl | rfl | ⟨rfl, -⟩
  · exact .inl rfl
  · exact .inr rfl
  · rcases final_eq hws with h | h <;> rw [h] at hwaiting <;> exact absurd hwaiting (by decide)

/-- **Waiting for the answer**: the two loops of `check_drive` end, with its last status. -/
theorem waits_for_answer {stat : Byte} (h : Answering s₀ i ws s) (hway : OnTheWay i ws stat s)
    (hws : ws ≠ some []) : ∃ bound stat₁ s₁ s₂,
      (∀ fuel, bound ≤ fuel →
        pollWhile idePorts (fun stat => stat &&& bsy ≠ 0) (baseOf i) fuel stat s = .ok (stat₁, s₁) ∧
        pollWhile idePorts (fun stat => stat &&& drq = 0 ∧ stat &&& err = 0) (baseOf i) fuel stat₁
          s₁ = .ok (Reply.final ws, s₂)) ∧
      Answering s₀ i ws s₂ ∧ (s₂ i).reply = some ⟨0, 0, ws⟩ := by
  obtain ⟨bound₁, stat₁, s₁, hrun₁, -, hanswer₁, hway₁⟩ : ∃ bound stat₁ s₁,
      (∀ fuel, bound ≤ fuel → pollWhile idePorts (fun stat => stat &&& bsy ≠ 0) (baseOf i) fuel stat
        s = .ok (stat₁, s₁)) ∧ _ ∧ Answering s₀ i ws s₁ ∧ OnTheWay i ws stat₁ s₁ :=
    pollWhile_spec (busyLeft i) (fun s hs => ⟨hs.readStat.1, hs.readStat.2.1, fun hcond =>
      hs.readStat.2.2.1 (hs.readStat.2.1.eq_of_busy hws hcond)⟩) h hway
  obtain ⟨bound₂, stat₂, s₂, hrun₂, hdone, hanswer₂, hway₂⟩ : ∃ bound stat₂ s₂,
      (∀ fuel, bound ≤ fuel → pollWhile idePorts (fun stat => stat &&& drq = 0 ∧ stat &&& err = 0)
        (baseOf i) fuel stat₁ s₁ = .ok (stat₂, s₂)) ∧
        decide (stat₂ &&& drq = 0 ∧ stat₂ &&& err = 0) = false ∧ Answering s₀ i ws s₂ ∧
        OnTheWay i ws stat₂ s₂ :=
    pollWhile_spec (readsLeft i) (fun s hs => ⟨hs.readStat.1, hs.readStat.2.1, fun hcond =>
      hs.readStat.2.2.2 (hs.readStat.2.1.eq_of_waiting hws hcond) hws⟩) hanswer₁ hway₁
  obtain ⟨rfl, hreply⟩ : stat₂ = Reply.final ws ∧ (s₂ i).reply = some ⟨0, 0, ws⟩ := by
    rcases hway₂ with rfl | rfl | hfinal
    · exact absurd hdone (by decide)
    · exact absurd hdone (by decide)
    · exact hfinal
  exact ⟨max bound₁ bound₂, stat₁, s₁, s₂, fun fuel hfuel =>
    ⟨hrun₁ fuel (by omega), hrun₂ fuel (by omega)⟩, hanswer₂, hreply⟩

/-- The words of an answer are read. -/
theorem repInsw_answer (n j : ℕ) (buf : ℕ → Word) {l : List Word} (hn : n ≤ l.length)
    (hreply : (s i).reply = some ⟨0, 0, some l⟩) :
    (∀ k, (repInsw idePorts (baseOf i + Port.data) n j buf s).1 k =
        if j ≤ k ∧ k < j + n then l.getD (k - j) 0 else buf k) ∧
      SameDrives s (repInsw idePorts (baseOf i + Port.data) n j buf s).2 := by
  induction n generalizing j buf s l with
  | zero => exact ⟨fun k => (if_neg (by omega)).symm, .refl s⟩
  | succ n ih =>
    obtain _ | ⟨w, l⟩ := l
    · cases hn
    have hinw : (s i).inw = (w, { s i with reply := some ⟨0, 0, some l⟩ }) := by
      rw [Bus.inw, hreply]
      rfl
    have hupdate : SameDrives s
        (Function.update s i { s i with reply := some ⟨0, 0, some l⟩ }) :=
      (SameDrives.refl s).update rfl rfl
    simp only [repInsw, inw_base, hinw]
    obtain ⟨hbuf, hsame⟩ := ih (s := Function.update s i { s i with reply := some ⟨0, 0, some l⟩ })
      (j + 1) (Function.update buf j w) (Nat.le_of_succ_le_succ hn) (by rw [Function.update_self])
    refine ⟨fun k => ?_, hupdate.trans hsame⟩
    rw [hbuf k]
    rcases lt_trichotomy k j with hlt | rfl | hgt
    · rw [if_neg (by omega), if_neg (by omega), Function.update_of_ne hlt.ne]
    · rw [if_neg (by omega), if_pos (by omega), Function.update_self, Nat.sub_self,
        List.getD_cons_zero]
    · rw [Function.update_of_ne hgt.ne', show k - j = k - (j + 1) + 1 by omega, List.getD_cons_succ]
      exact if_congr (by omega) rfl rfl

/-- The probe of a place, before a drive has been found. -/
theorem checkDrive_boot (fuel : ℕ) (i slave : Bool) (s : Ide) :
    checkDrive idePorts fuel (baseOf i) (selectByte slave) .boot s =
      let r := readStat idePorts (baseOf i) (sendIdentify idePorts (baseOf i) (selectByte slave) s)
      if r.1 = 0 then .ok (.boot, r.2)
      else
        pollWhile idePorts (fun stat => stat &&& bsy ≠ 0) (baseOf i) fuel r.1 r.2 >>= fun r =>
        pollWhile idePorts (fun stat => stat &&& drq = 0 ∧ stat &&& err = 0) (baseOf i) fuel r.1
          r.2 >>= fun r =>
        if r.1 &&& err ≠ 0 then .ok (.boot, r.2)
        else .ok (readIdentity idePorts (baseOf i) (selectByte slave) r.2) := rfl

/-- A floating bus never stops being busy. -/
theorem checkDrive_floating (hfloating : (s i).floating = true) (slave : Bool) (fuel : ℕ) :
    checkDrive idePorts fuel (baseOf i) (selectByte slave) .boot s = .error .unfinished := by
  have hread : ∀ s : Ide, (s i).floating = true →
      ((readStat idePorts (baseOf i) s).2 i).floating = true ∧
        (readStat idePorts (baseOf i) s).1 = 0xFF := by
    intro s hs
    rw [readStat_base, tick_iterate, tick_iterate]
    refine ⟨by simpa using hs, ?_⟩
    simp only [Bus.status, hs, if_true]
  have hsent : ((sendIdentify idePorts (baseOf i) (selectByte slave) s) i).floating = true := by
    rw [sendIdentify_eq, Function.update_self]
    exact hfloating
  obtain ⟨hs', hstat⟩ := hread _ hsent
  have hnever : ∀ s : Ide, (s i).floating = true → pollWhile idePorts (fun stat => stat &&& bsy ≠ 0)
      (baseOf i) fuel 0xFF s = .error .unfinished := by
    intro s hs
    refine pollWhile_unfinished (P := fun s : Ide => (s i).floating = true) (fun s hs => ?_) hs
      (by decide) fuel
    exact ⟨(hread s hs).1, by rw [(hread s hs).2]; decide⟩
  rw [checkDrive_boot]
  simp only [hstat]
  rw [if_neg (by decide), hnever _ hs']
  rfl

/-- An empty place. -/
theorem checkDrive_absent (halive : (s i).floating = false) (hplace : (s i).place slave = .absent) :
    ∃ s', (∀ fuel, checkDrive idePorts fuel (baseOf i) (selectByte slave) .boot s =
      .ok (.boot, s')) ∧ SameDrives s s' := by
  have hstat : (readStat idePorts (baseOf i)
      (sendIdentify idePorts (baseOf i) (selectByte slave) s)).1 = 0 := by
    rw [sendIdentify_eq, readStat_base, Function.update_self, tick_iterate]
    simp [Bus.status, halive, hplace, Place.reply]
  refine ⟨(readStat idePorts (baseOf i) (sendIdentify idePorts (baseOf i) (selectByte slave) s)).2,
    fun fuel => ?_, ?_⟩
  · rw [checkDrive_boot]
    simp only [hstat, if_true]
  · rw [sendIdentify_eq, readStat_base, tick_iterate, Function.update_self, Function.update_idem]
    exact (SameDrives.refl s).update rfl rfl

/-- A place with a drive that answers with the words `ws`, or with an error. -/
theorem checkDrive_answer {r : Reply} (halive : (s i).floating = false)
    (hreply : ((s i).place slave).reply = some r) (hws : r.words ≠ some []) :
    ∃ bound s', (∀ fuel, bound ≤ fuel →
        checkDrive idePorts fuel (baseOf i) (selectByte slave) .boot s =
          if Reply.final r.words &&& err ≠ 0 then .ok (.boot, s')
          else .ok (readIdentity idePorts (baseOf i) (selectByte slave) s')) ∧
      SameDrives s s' ∧ (s' i).reply = some ⟨0, 0, r.words⟩ := by
  obtain ⟨s₁, hs₁⟩ : ∃ s₁, s₁ = sendIdentify idePorts (baseOf i) (selectByte slave) s := ⟨_, rfl⟩
  have hsent : Answering s i r.words s₁ := by
    rw [hs₁, sendIdentify_eq]
    refine ⟨(SameDrives.refl s).update rfl rfl, by rw [Function.update_self]; exact halive, ?_⟩
    exact ⟨r.busy, r.wait, by rw [Function.update_self, hreply]⟩
  obtain ⟨hanswer, hway, -⟩ := hsent.readStat
  have hstat : (readStat idePorts (baseOf i) s₁).1 ≠ 0 := by
    rcases hway with h | h | ⟨h, -⟩
    · exact h ▸ by decide
    · exact h ▸ by decide
    · rcases final_eq hws with hfinal | hfinal <;> rw [h, hfinal] <;> decide
  obtain ⟨bound, stat₁, s₂, s₃, hrun, hdone, hready⟩ := waits_for_answer hanswer hway hws
  refine ⟨bound, s₃, fun fuel hfuel => ?_, hdone.same, hready⟩
  obtain ⟨hfirst, hsecond⟩ := hrun fuel hfuel
  rw [checkDrive_boot, ← hs₁]
  simp only [if_neg hstat, hfirst, hsecond, except_ok_bind]

/-- **The probe of one place**, before a drive has been found: it hangs on a floating bus, and
otherwise it selects an ATA drive. -/
theorem checkDrive_spec (s : Ide) (i slave : Bool) :
    if (s i).floating then
      ∀ fuel, checkDrive idePorts fuel (baseOf i) (selectByte slave) .boot s = .error .unfinished
    else ∃ bound s', SameDrives s s' ∧ ∀ fuel, bound ≤ fuel →
      checkDrive idePorts fuel (baseOf i) (selectByte slave) .boot s =
        .ok (match (s i).place slave with
          | .ata _ _ identity => selected i slave identity
          | _ => .boot, s') := by
  cases halive : (s i).floating with
  | true => exact checkDrive_floating halive slave
  | false =>
    rw [if_neg Bool.false_ne_true]
    cases hplace : (s i).place slave with
    | absent =>
      obtain ⟨s', hrun, hsame⟩ := checkDrive_absent halive hplace
      exact ⟨0, s', hsame, fun fuel _ => hrun fuel⟩
    | other busy wait =>
      have hreply : ((s i).place slave).reply = some ⟨busy, wait, none⟩ := by
        rw [hplace]
        rfl
      obtain ⟨bound, s', hrun, hsame, -⟩ := checkDrive_answer halive hreply (by simp)
      refine ⟨bound, s', hsame, fun fuel hfuel => ?_⟩
      rw [hrun fuel hfuel]
      exact if_pos (show (0x41 : Byte) &&& err ≠ 0 by decide)
    | ata busy wait identity =>
      have hreply : ((s i).place slave).reply =
          some ⟨busy, wait, some ((List.range 256).map identity)⟩ := by
        rw [hplace]
        rfl
      obtain ⟨bound, s', hrun, hsame, hready⟩ := checkDrive_answer halive hreply (by simp)
      obtain ⟨hbuf, hsame'⟩ := repInsw_answer 256 0 (fun _ => 0) (by simp) hready
      refine ⟨bound, _, hsame.trans hsame', fun fuel hfuel => ?_⟩
      have hfinal : Reply.final (some ((List.range 256).map identity)) = 0x48 := rfl
      have hok : ¬Reply.final (some ((List.range 256).map identity)) &&& err ≠ 0 := by
        rw [hfinal]
        decide
      refine (hrun fuel hfuel).trans ((if_neg hok).trans ?_)
      rw [readIdentity]
      simp only [hbuf]
      simp [max28LbaSectors, selected, selectByte]

/-! ### The search -/

/-- Once a drive has been found, no other place is probed. -/
theorem checkDrive_found {d : DriverState} (h : d.sel.basePort ≠ 0) (fuel base : ℕ) (v : Byte)
    (s : Ide) : checkDrive idePorts fuel base v d s = .ok (d, s) := by
  rw [checkDrive, if_pos h]

/-- The probes of a list of places, one after the other. -/
def checkDrives (fuel : ℕ) : List (Bool × Bool) → DriverState → Ide →
    Except Stop (DriverState × Ide)
  | [], d, s => .ok (d, s)
  | (i, slave) :: places, d, s =>
    checkDrive idePorts fuel (baseOf i) (selectByte slave) d s >>= fun r =>
      checkDrives fuel places r.1 r.2

/-- The search ends or hangs as it should. -/
def Comes (run : ℕ → Except Stop (DriverState × Ide)) (s : Ide) : Search → Prop
  | .hangs => ∀ fuel r, run fuel ≠ .ok r
  | .ends d => ∃ bound s', SameDrives s s' ∧ ∀ fuel, bound ≤ fuel → run fuel = .ok (d, s')

theorem checkDrives_found {d : DriverState} (h : d.sel.basePort ≠ 0) (fuel : ℕ)
    (places : List (Bool × Bool)) (s : Ide) : checkDrives fuel places d s = .ok (d, s) := by
  induction places with
  | nil => rfl
  | cons place places ih => rw [checkDrives, checkDrive_found h, except_ok_bind, ih]

theorem basePort_selected (i slave : Bool) (identity : ℕ → Word) :
    (selected i slave identity).sel.basePort ≠ 0 := by
  have hbase : baseOf i ≠ 0 := by cases i <;> decide
  exact hbase

theorem checkDrives_mono {fuel fuel' : ℕ} {places : List (Bool × Bool)} {d : DriverState}
    {r : DriverState × Ide} (hle : fuel ≤ fuel') (h : checkDrives fuel places d s = .ok r) :
    checkDrives fuel' places d s = .ok r := by
  induction places generalizing d s with
  | nil => exact h
  | cons place places ih =>
    obtain ⟨r₁, hfirst, h⟩ := except_bind_eq_ok.mp h
    rw [checkDrives, checkDrive_mono hle hfirst, except_ok_bind]
    exact ih h

theorem probe_congr (h : SameDrives s s') (places : List (Bool × Bool)) :
    probe s' places = probe s places := by
  induction places with
  | nil => rfl
  | cons place places ih => rw [probe, probe, (h place.1).1, (h place.1).2, ih]

/-- **The probes of a list of places** select the first drive, or hang on the first floating bus. -/
theorem checkDrives_spec (places : List (Bool × Bool)) (s : Ide) :
    Comes (fun fuel => checkDrives fuel places .boot s) s (probe s places) := by
  induction places generalizing s with
  | nil => exact ⟨0, s, .refl s, fun _ _ => rfl⟩
  | cons place places ih =>
    obtain ⟨i, slave⟩ := place
    have hplace := checkDrive_spec s i slave
    rw [probe]
    split_ifs at hplace ⊢ with hfloating
    · intro fuel r hr
      obtain ⟨r₁, hfirst, -⟩ := except_bind_eq_ok.mp hr
      cases (hplace fuel).symm.trans hfirst
    · obtain ⟨bound, s₁, hsame, hrun⟩ := hplace
      have hgo : ∀ d, (∀ fuel, bound ≤ fuel → checkDrive idePorts fuel (baseOf i) (selectByte slave)
          .boot s = .ok (d, s₁)) → ∀ fuel, bound ≤ fuel →
            checkDrives fuel ((i, slave) :: places) .boot s = checkDrives fuel places d s₁ := by
        intro d hd fuel hfuel
        rw [checkDrives, hd fuel hfuel, except_ok_bind]
      have hrest : (∀ fuel, bound ≤ fuel → checkDrive idePorts fuel (baseOf i) (selectByte slave)
          .boot s = .ok (.boot, s₁)) →
            Comes (fun fuel => checkDrives fuel ((i, slave) :: places) .boot s) s
              (probe s places) := by
        intro hboot
        have hplaces := ih s₁
        rw [probe_congr hsame] at hplaces
        cases hprobe : probe s places with
        | hangs =>
          rw [hprobe] at hplaces
          intro fuel r hr
          have hmore := checkDrives_mono (Nat.le_add_left fuel bound) hr
          rw [hgo _ hboot _ (Nat.le_add_right bound fuel)] at hmore
          exact hplaces _ r hmore
        | ends d =>
          rw [hprobe] at hplaces
          obtain ⟨bound', s₂, hsame', hrun'⟩ := hplaces
          refine ⟨max bound bound', s₂, hsame.trans hsame', fun fuel hfuel => ?_⟩
          exact (hgo _ hboot fuel (by omega)).trans (hrun' fuel (by omega))
      cases hplace : (s i).place slave with
      | absent =>
        rw [hplace] at hrun
        exact hrest hrun
      | other busy wait =>
        rw [hplace] at hrun
        exact hrest hrun
      | ata busy wait identity =>
        rw [hplace] at hrun
        refine ⟨bound, s₁, hsame, fun fuel hfuel => ?_⟩
        simp only [hgo _ hrun fuel hfuel]
        exact checkDrives_found (basePort_selected i slave identity) fuel places s₁

/-- Only a floating bus has the status `0xFF`. -/
theorem status_eq_iff (b : Bus) : b.status = 0xFF ↔ b.floating = true := by
  rw [Bus.status]
  split_ifs with hfloating
  · exact iff_of_true rfl hfloating
  · refine iff_of_false (fun hstat => ?_) hfloating
    cases hreply : b.reply with
    | some r =>
      have hfinal : Reply.final r.words ≠ 0xFF := by
        by_cases hws : r.words = some []
        · rw [hws]
          decide
        · rcases final_eq hws with h | h <;> rw [h] <;> decide
      simp only [hreply, Reply.status] at hstat
      split_ifs at hstat
      · exact absurd hstat (by decide)
      · exact absurd hstat (by decide)
      · exact hfinal hstat
    | none =>
      simp only [hreply] at hstat
      cases hplace : b.place b.selected <;> simp only [hplace] at hstat <;>
        exact absurd hstat (by decide)

/-- `init_ata` reads the two statuses and then probes the places. -/
theorem initAta_eq (fuel : ℕ) (s : Ide) : initAta idePorts fuel .boot s =
    if (s false).floating ∧ (s true).floating then
      .ok (.boot, Function.update (Function.update s false (s false).tick) true (s true).tick)
    else checkDrives fuel places .boot
      (Function.update (Function.update s false (s false).tick) true (s true).tick) := by
  have hpri : idePorts.inb s (primaryBase + Port.comStat) =
      ((s false).status, Function.update s false (s false).tick) := inb_base s false
  have hsec : idePorts.inb (Function.update s false (s false).tick) (secondaryBase + Port.comStat) =
      ((s true).status, Function.update (Function.update s false (s false).tick) true
        (s true).tick) := inb_base _ true
  have hend : ∀ x : Except Stop (DriverState × Ide), (x >>= fun r => .ok (r.1, r.2)) = x := by
    intro x
    cases x <;> rfl
  rw [initAta]
  simp only [hpri, hsec, status_eq_iff]
  refine if_congr Iff.rfl rfl ?_
  simp only [checkDrives, places, hend]
  rfl

/-- **The search for a drive** does what it comes to for every drive in every place: the driver
gives up when both buses float, and otherwise it selects the first ATA drive with the number of
sectors from its identity, or it hangs on a floating bus in front of it. -/
theorem initAta_comes (s : Ide) :
    Comes (fun fuel => initAta idePorts fuel .boot s) s (search s) := by
  obtain ⟨s₁, hs₁⟩ : ∃ s₁, s₁ = Function.update (Function.update s false (s false).tick) true
      (s true).tick := ⟨_, rfl⟩
  have hsame : SameDrives s s₁ := by
    rw [hs₁]
    exact SameDrives.update ((SameDrives.refl s).update rfl rfl) rfl rfl
  simp only [initAta_eq, ← hs₁, search]
  split_ifs with hfloating
  · exact ⟨0, s₁, hsame, fun _ _ => rfl⟩
  · have hplaces := checkDrives_spec places s₁
    rw [probe_congr hsame] at hplaces
    cases hprobe : probe s places with
    | hangs =>
      rw [hprobe] at hplaces
      exact hplaces
    | ends d =>
      rw [hprobe] at hplaces
      obtain ⟨bound, s₂, hsame', hrun⟩ := hplaces
      exact ⟨bound, s₂, hsame.trans hsame', hrun⟩

/-- The place has an ATA drive. -/
def HasAta (s : Ide) (place : Bool × Bool) : Prop :=
  ∃ busy wait identity, (s place.1).place place.2 = .ata busy wait identity

theorem probe_cons (s : Ide) (place : Bool × Bool) (places : List (Bool × Bool)) :
    (s place.1).floating = true ∧ probe s (place :: places) = .hangs ∨
      (s place.1).floating = false ∧ (¬HasAta s place ∧ probe s (place :: places) = probe s places ∨
        ∃ busy wait identity, (s place.1).place place.2 = .ata busy wait identity ∧
          probe s (place :: places) = .ends (selected place.1 place.2 identity)) := by
  rw [probe]
  cases hfloating : (s place.1).floating with
  | true => exact .inl ⟨rfl, rfl⟩
  | false =>
    refine .inr ⟨rfl, ?_⟩
    have hnot : (∀ busy wait identity, (s place.1).place place.2 ≠ .ata busy wait identity) →
        ¬HasAta s place := by
      rintro h ⟨busy, wait, identity, hplace⟩
      exact h busy wait identity hplace
    cases hplace : (s place.1).place place.2 with
    | absent => exact .inl ⟨hnot (by simp [hplace]), rfl⟩
    | other busy wait => exact .inl ⟨hnot (by simp [hplace]), rfl⟩
    | ata busy wait identity => exact .inr ⟨busy, wait, identity, rfl, rfl⟩

/-- A search that ends has selected the first ATA drive, if there is one. -/
theorem probe_eq_ends {d : DriverState} {places : List (Bool × Bool)}
    (h : probe s places = .ends d) :
    (d = .boot ∧ ∀ p ∈ places, ¬HasAta s p) ∨
      ∃ before place behind busy wait identity, places = before ++ place :: behind ∧
        (s place.1).place place.2 = .ata busy wait identity ∧
        d = selected place.1 place.2 identity ∧ ∀ p ∈ before, ¬HasAta s p := by
  induction places with
  | nil =>
    cases h
    exact .inl ⟨rfl, by simp⟩
  | cons place places ih =>
    rcases probe_cons s place places with ⟨-, hprobe⟩ | ⟨-, ⟨hnot, hprobe⟩ | hfound⟩
    · cases hprobe.symm.trans h
    · rcases ih (hprobe.symm.trans h) with ⟨hd, hnone⟩ |
        ⟨before, p, behind, busy, wait, identity, rfl, hplace, hd, hbefore⟩
      · exact .inl ⟨hd, List.forall_mem_cons.mpr ⟨hnot, hnone⟩⟩
      · exact .inr ⟨place :: before, p, behind, busy, wait, identity, rfl, hplace, hd,
          List.forall_mem_cons.mpr ⟨hnot, hbefore⟩⟩
    · obtain ⟨busy, wait, identity, hplace, hprobe⟩ := hfound
      cases hprobe.symm.trans h
      exact .inr ⟨[], place, places, busy, wait, identity, rfl, hplace, rfl, by simp⟩

/-- A search over buses that do not float ends. -/
theorem probe_ne_hangs {places : List (Bool × Bool)}
    (h : ∀ p ∈ places, (s p.1).floating = false) : probe s places ≠ .hangs := by
  induction places with
  | nil =>
    intro hhangs
    cases hhangs
  | cons place places ih =>
    obtain ⟨hplace, hplaces⟩ := List.forall_mem_cons.mp h
    rcases probe_cons s place places with ⟨hfloating, -⟩ | ⟨-, ⟨-, hprobe⟩ | hfound⟩
    · exact absurd (hplace.symm.trans hfloating) (by decide)
    · exact hprobe ▸ ih hplaces
    · obtain ⟨busy, wait, identity, -, hprobe⟩ := hfound
      intro hhangs
      cases hprobe.symm.trans hhangs

theorem search_eq_hangs_iff (s : Ide) : search s = .hangs ↔
    (s false).floating ≠ (s true).floating ∧
      ((s false).floating = true ∨ ¬HasAta s (false, false) ∧ ¬HasAta s (false, true)) := by
  rw [search]
  cases hpri : (s false).floating <;> cases hsec : (s true).floating
  · -- No bus floats.
    rw [if_neg (by simp)]
    refine iff_of_false (probe_ne_hangs fun p _ => ?_) (by simp)
    obtain ⟨i, slave⟩ := p
    cases i
    · exact hpri
    · exact hsec
  · -- The secondary bus floats, and is reached when there is no drive on the primary one.
    rw [if_neg (by simp), places]
    have hthird : probe s [(true, false), (true, true)] = .hangs := by
      rw [probe, if_pos hsec]
    rcases probe_cons s (false, false) [(false, true), (true, false), (true, true)] with
      ⟨h, -⟩ | ⟨-, ⟨hfirst, hprobe⟩ | ⟨busy, wait, identity, hplace, hprobe⟩⟩
    · exact absurd (hpri.symm.trans h) (by decide)
    · rw [hprobe]
      rcases probe_cons s (false, true) [(true, false), (true, true)] with
        ⟨h, -⟩ | ⟨-, ⟨hsecond, hprobe⟩ | ⟨busy, wait, identity, hplace, hprobe⟩⟩
      · exact absurd (hpri.symm.trans h) (by decide)
      · rw [hprobe, hthird]
        exact iff_of_true rfl ⟨by decide, .inr ⟨hfirst, hsecond⟩⟩
      · rw [hprobe]
        refine iff_of_false (fun h => by cases h) ?_
        rintro ⟨-, h | ⟨-, hnot⟩⟩
        · cases h
        · exact hnot ⟨busy, wait, identity, hplace⟩
    · rw [hprobe]
      refine iff_of_false (fun h => by cases h) ?_
      rintro ⟨-, h | ⟨hnot, -⟩⟩
      · cases h
      · exact hnot ⟨busy, wait, identity, hplace⟩
  · -- The primary bus floats, and its master is probed first.
    rw [if_neg (by simp), places, probe, if_pos hpri]
    exact iff_of_true rfl ⟨by decide, .inl rfl⟩
  · rw [if_pos ⟨rfl, rfl⟩]
    exact iff_of_false (fun h => by cases h) (by simp)

theorem initAta_mono {fuel fuel' : ℕ} {r : DriverState × Ide} (hle : fuel ≤ fuel')
    (h : initAta idePorts fuel .boot s = .ok r) : initAta idePorts fuel' .boot s = .ok r := by
  rw [initAta_eq] at h ⊢
  split_ifs at h ⊢ with hfloating
  · exact h
  · exact checkDrives_mono hle h

/-- **The driver hangs** exactly when one bus floats and the other does not, and there is no ATA
drive on the primary bus. -/
theorem initAta_hangs_iff (s : Ide) : (∀ fuel r, initAta idePorts fuel .boot s ≠ .ok r) ↔
    (s false).floating ≠ (s true).floating ∧
      ((s false).floating = true ∨ ¬HasAta s (false, false) ∧ ¬HasAta s (false, true)) := by
  rw [← search_eq_hangs_iff]
  have hcomes := initAta_comes s
  cases hsearch : search s with
  | hangs =>
    rw [hsearch] at hcomes
    exact iff_of_true hcomes rfl
  | ends d =>
    rw [hsearch] at hcomes
    obtain ⟨bound, s', -, hrun⟩ := hcomes
    refine iff_of_false (fun h => h bound _ (hrun bound le_rfl)) fun h => ?_
    cases h

/-- **The drive that is selected** when the driver returns: none when both buses float; otherwise
the first ATA drive in the order of the places, with the number of sectors from words 60 and 61 of
its identity, or none when there is no ATA drive. The drives are as before. -/
theorem initAta_selects {fuel : ℕ} {d : DriverState}
    (h : initAta idePorts fuel .boot s = .ok (d, s')) : SameDrives s s' ∧
      ((s false).floating = true ∧ (s true).floating = true ∧ d = .boot ∨
        (d = .boot ∧ ∀ p ∈ places, ¬HasAta s p) ∨
        ∃ before place behind busy wait identity, places = before ++ place :: behind ∧
          (s place.1).place place.2 = .ata busy wait identity ∧
          d = selected place.1 place.2 identity ∧ ∀ p ∈ before, ¬HasAta s p) := by
  have hcomes := initAta_comes s
  cases hsearch : search s with
  | hangs =>
    rw [hsearch] at hcomes
    exact absurd h (hcomes fuel _)
  | ends d' =>
    rw [hsearch] at hcomes
    obtain ⟨bound, s₁, hsame, hrun⟩ := hcomes
    have hmore := initAta_mono (Nat.le_add_left fuel bound) h
    cases hmore.symm.trans (hrun _ (Nat.le_add_right bound fuel))
    refine ⟨hsame, ?_⟩
    rw [search] at hsearch
    split_ifs at hsearch with hfloating
    · cases hsearch
      exact .inl ⟨hfloating.1, hfloating.2, rfl⟩
    · exact .inr (probe_eq_ends hsearch)

end

/-- Buses with an ATA drive as the slave on the secondary bus, behind a drive that is not one. -/
def sampleIde (i : Bool) : Bus where
  floating := false
  place slave :=
    if i then (if slave then .ata 7 2 fun k => BitVec.ofNat 16 k else .other 3 1) else .absent
  selected := false
  reply := none

theorem initAta_selects_sample : ∃ fuel d s',
    initAta idePorts fuel .boot sampleIde = .ok (d, s') ∧ SameDrives sampleIde s' ∧
      ((sampleIde false).floating = true ∧ (sampleIde true).floating = true ∧ d = .boot ∨
        (d = .boot ∧ ∀ p ∈ places, ¬HasAta sampleIde p) ∨
        ∃ before place behind busy wait identity, places = before ++ place :: behind ∧
          (sampleIde place.1).place place.2 = .ata busy wait identity ∧
          d = selected place.1 place.2 identity ∧ ∀ p ∈ before, ¬HasAta sampleIde p) := by
  have hsearch : search sampleIde = .ends (selected true true fun k => BitVec.ofNat 16 k) := rfl
  have hcomes := initAta_comes sampleIde
  rw [hsearch] at hcomes
  obtain ⟨bound, s', -, hrun⟩ := hcomes
  exact ⟨bound, _, s', hrun bound le_rfl, initAta_selects (hrun bound le_rfl)⟩

end Studix.Pata
