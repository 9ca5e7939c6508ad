import Minix.Kernel.FloppyRun

/-!
# Exact floppy transfers

Where the number of the first sector is an `int`, a transfer terminates and is exact, whatever the
controller answers. Where it is not, the sectors of another part of the diskette are transferred,
unless they are too many, and with a negative number there is no such place at all; with cylinder -1
the driver restores and moves the arm for ever. `floppy_exact` says that there are no other cases.
-/

namespace Minix.Kernel.Floppy

open Lib

variable {s s' : Fd} {mp : RdwtMess VirBytes} {proc_addr : ℤ → ProcMap} {as : List Attempt}
  {a : Attempt} {k e : ℕ}

/-- The number of sectors of the diskette. -/
def diskSectors (mp : RdwtMess VirBytes) : ℤ := NR_CYLINDERS * nr_heads (DTYPE mp.DEVICE) * NR_SECTORS

/-- There is no such drive, no such type, or no such buffer. -/
def Refused (proc_addr : ℤ → ProcMap) (mp : RdwtMess VirBytes) : Prop :=
  NR_FLOPDRIVES ≤ DRIVE mp.DEVICE ∨ NR_TYPES ≤ DTYPE mp.DEVICE ∨ physical proc_addr mp = 0

/-- The number of the first sector, as an `int`, is not negative, and it is that of the position
unless the transfer leads behind the last sector. -/
def SectorFits (mp : RdwtMess VirBytes) : Prop :=
  0 ≤ startSector mp ∧ (startSector mp = mp.POSITION / SECTOR_SIZE ∨
    diskSectors mp < startSector mp + mp.COUNT / SECTOR_SIZE)

/-! ## The first command -/

/-- A request for some sectors, not to format a track. -/
structure Request (mp : RdwtMess VirBytes) : Prop where
  pos : 0 < mp.COUNT
  count : mp.COUNT % SECTOR_SIZE = 0
  position : mp.POSITION % SECTOR_SIZE = 0
  format : FORMAT mp.DEVICE = false

theorem prepare_refused (hq : Request mp) (h : Refused proc_addr mp) (s : Fd) :
    ∃ r t, prepare proc_addr mp s = .inl (r, t) ∧ r < 0 ∧ t.issued = [] ∧ t.attempts = [] := by
  have hmul : mp.COUNT.tmod SECTOR_SIZE = 0 :=
    Int.tmod_eq_zero_of_dvd (Int.dvd_of_emod_eq_zero hq.count)
  have halign : mp.POSITION.tmod SECTOR_SIZE = 0 :=
    Int.tmod_eq_zero_of_dvd (Int.dvd_of_emod_eq_zero hq.position)
  unfold prepare
  dsimp only
  by_cases hdrive : DRIVE mp.DEVICE ≥ NR_FLOPDRIVES
  · rw [if_pos hdrive]
    exact ⟨_, _, rfl, by decide, rfl, rfl⟩
  rw [if_neg hdrive]
  by_cases htype : DTYPE mp.DEVICE ≥ NR_TYPES
  · rw [if_pos htype]
    exact ⟨_, _, rfl, by decide, rfl, rfl⟩
  have haddress : physical proc_addr mp = 0 := by
    rcases h with h | h | h
    · exact absurd h hdrive
    · exact absurd h htype
    · exact h
  rw [if_neg htype, if_neg (not_not.mpr halign), if_neg (not_not.mpr hmul),
    if_neg (by simp [hq.format]), if_pos haddress]
  exact ⟨_, _, rfl, by decide, rfl, rfl⟩

theorem prepare_starts (hq : Request mp) (h : ¬Refused proc_addr mp) (s : Fd) :
    ∃ t, prepare proc_addr mp s = .inr t ∧ Started proc_addr mp t 0 0 ∧ t.issued = [] := by
  have hmul : mp.COUNT.tmod SECTOR_SIZE = 0 :=
    Int.tmod_eq_zero_of_dvd (Int.dvd_of_emod_eq_zero hq.count)
  have halign : mp.POSITION.tmod SECTOR_SIZE = 0 :=
    Int.tmod_eq_zero_of_dvd (Int.dvd_of_emod_eq_zero hq.position)
  obtain ⟨hdrive, htype, haddress⟩ : ¬DRIVE mp.DEVICE ≥ NR_FLOPDRIVES ∧ ¬DTYPE mp.DEVICE ≥ NR_TYPES ∧
      ¬physical proc_addr mp = 0 := by
    simpa only [Refused, not_or] using h
  unfold prepare
  dsimp only
  rw [if_neg hdrive, if_neg htype, if_neg (not_not.mpr halign), if_neg (not_not.mpr hmul),
    if_neg (by simp [hq.format]), if_neg haddress, if_neg hq.pos.ne']
  refine ⟨_, rfl, ⟨rfl, rfl, ?_, ?_, ?_, ?_, rfl, by decide, ?_⟩, rfl⟩
  · show (if FORMAT mp.DEVICE = true then _ else int16 (mp.POSITION.tdiv SECTOR_SIZE)) = _
    rw [hq.format]
    exact (add_zero _).symm
  · show physical proc_addr mp = _
    exact (BitVec.add_zero _).symm
  · show mp.COUNT = mp.COUNT - SECTOR_SIZE * 0
    rw [mul_zero, sub_zero]
  · exact hq.pos
  · refine ⟨by simp, by simp, rfl, fun _ => Nat.zero_le _, rfl⟩

theorem sensible (hq : Request mp) (h : ¬Refused proc_addr mp) (h0 : 0 ≤ startSector mp) :
    Sensible mp :=
  ⟨hq.format, not_le.mp fun hd => h (.inl hd), h0⟩

/-! ## The end -/

/-- A sector that has been transferred is on the diskette. -/
theorem Attempt.Good.inside (h : a.Good proc_addr mp) (hok : a.ok = true) :
    0 ≤ a.secnum ∧ a.secnum < diskSectors mp := by
  obtain ⟨c, hc, hcmd⟩ := List.mem_map.mp (h.transfer hok)
  have htransfer : c.cmd = .F_READ ∨ c.cmd = .F_WRITE := hcmd ▸ transferCmd_cases mp.m_type
  obtain ⟨i, hexact⟩ := h.exact c hc htransfer
  obtain ⟨hcyl, hhead, hsector, hsecnum⟩ := hexact.place
  rw [h.sector c hc] at hsecnum
  have hcyls : NR_CYLINDERS = 80 := rfl
  have hsecs : NR_SECTORS = 9 := rfl
  rw [diskSectors, ← hsecnum]
  rw [hcyls] at hcyl ⊢
  rw [hsecs] at hsector ⊢
  have htracks : c.regs.fdc_tr * nr_heads (DTYPE mp.DEVICE) + headOf c.selected + 1 ≤
      80 * nr_heads (DTYPE mp.DEVICE) := by
    calc c.regs.fdc_tr * nr_heads (DTYPE mp.DEVICE) + headOf c.selected + 1
        ≤ c.regs.fdc_tr * nr_heads (DTYPE mp.DEVICE) + nr_heads (DTYPE mp.DEVICE) := by omega
      _ = (c.regs.fdc_tr + 1) * nr_heads (DTYPE mp.DEVICE) := by ring
      _ ≤ 80 * nr_heads (DTYPE mp.DEVICE) := by
        exact Int.mul_le_mul_of_nonneg_right (by omega) (by omega)
  have htrack : 0 ≤ c.regs.fdc_tr * nr_heads (DTYPE mp.DEVICE) :=
    Int.mul_nonneg hcyl.1 (by omega)
  constructor
  · omega
  · omega

theorem mem_transferred {n : ℤ} (hgood : ∀ a ∈ as, a.Good proc_addr mp) (h : n ∈ transferred as) :
    0 ≤ n ∧ n < diskSectors mp := by
  obtain ⟨a, ha, rfl⟩ := List.mem_map.mp h
  obtain ⟨hin, hok⟩ := List.mem_filter.mp ha
  exact (hgood a hin).inside hok

/-- The sectors of the first cylinders have numbers of an `int`. -/
theorem diskSectors_le (mp : RdwtMess VirBytes) : 720 ≤ diskSectors mp ∧ diskSectors mp ≤ 1440 := by
  rw [diskSectors, nr_heads]
  split_ifs <;> decide

/-- A number of the request that is on the diskette is not changed by the cast. -/
theorem start_of_inside (hq : Request mp) (h0 : 0 ≤ mp.POSITION / SECTOR_SIZE)
    (hlt : mp.POSITION / SECTOR_SIZE < diskSectors mp) :
    startSector mp = mp.POSITION / SECTOR_SIZE := by
  have hdiv : mp.POSITION.tdiv SECTOR_SIZE = mp.POSITION / SECTOR_SIZE :=
    Int.tdiv_eq_ediv_of_dvd (Int.dvd_of_emod_eq_zero hq.position)
  have hle := (diskSectors_le mp).2
  rw [startSector, hdiv]
  exact int16_of_range (by omega) (by omega)

/-- The count is returned after as many sectors. -/
theorem Ended.status_iff (hq : Request mp) (h : Ended proc_addr mp s k) :
    rdwtStatus mp.COUNT s = mp.COUNT ↔ SECTOR_SIZE * k = mp.COUNT := by
  have hpos := hq.pos
  have hio : EIO = -5 := rfl
  rw [rdwtStatus, h.x_count]
  split_ifs <;> omega

/-- The sectors of the request have been transferred once each if and only if the transfer was
complete. -/
theorem Ended.exact_iff (hq : Request mp) (hfits : SectorFits mp) (h : Ended proc_addr mp s k) :
    SECTOR_SIZE * k = mp.COUNT ↔ ∀ i : ℕ, SECTOR_SIZE * i < mp.COUNT →
      (transferred s.attempts).count (mp.POSITION / SECTOR_SIZE + i) = 1 := by
  have hsize : SECTOR_SIZE = 512 := rfl
  have hpos := hq.pos
  have hmul := hq.count
  have hleft := h.left
  have hmem : ∀ i : ℕ, i < k → startSector mp + i ∈ transferred s.attempts := by
    intro i hi
    rw [h.moved]
    exact List.mem_map.mpr ⟨i, List.mem_range.mpr hi, rfl⟩
  have hnodup : (transferred s.attempts).Nodup := by
    rw [h.moved]
    refine List.nodup_range.map fun i j hij => ?_
    have : startSector mp + (i : ℤ) = startSector mp + (j : ℤ) := hij
    omega
  rcases hfits.2 with hstart | hlong
  · constructor
    · intro hk i hi
      rw [List.count_eq_one_of_mem hnodup]
      rw [← hstart]
      exact hmem i (by rw [hsize] at hk hi; omega)
    · intro hall
      by_contra hne
      have hlast := hall k (by omega)
      -- The sector behind the last one has not been transferred.
      have hin : mp.POSITION / SECTOR_SIZE + k ∈ transferred s.attempts := by
        apply List.count_pos_iff.mp
        omega
      rw [← hstart, h.moved] at hin
      obtain ⟨j, hj, hjk⟩ := List.mem_map.mp hin
      have := List.mem_range.mp hj
      omega
  · -- Neither the last sector is transferred nor one of the request.
    constructor
    · intro hk
      have hlast := mem_transferred h.good (hmem (k - 1) (by rw [hsize] at hk; omega))
      rw [hsize] at hk hlong
      omega
    · intro hall
      have hin : ∀ i : ℕ, SECTOR_SIZE * i < mp.COUNT →
          mp.POSITION / SECTOR_SIZE + i ∈ transferred s.attempts := by
        intro i hi
        have hone := hall i hi
        apply List.count_pos_iff.mp
        omega
      obtain ⟨n, hn⟩ : ∃ n : ℕ, mp.COUNT / SECTOR_SIZE = n + 1 :=
        ⟨(mp.COUNT / SECTOR_SIZE - 1).toNat, by rw [hsize] at hmul ⊢; omega⟩
      have hlast := mem_transferred h.good (hin n (by rw [hsize] at hn hmul ⊢; omega))
      have hfirst := mem_transferred h.good (hin 0 (by rw [hsize]; omega))
      have hstart := start_of_inside hq (by omega) (by omega)
      omega

/-- A request that has returned. -/
theorem TransferExact.of_returned {r : ℤ} (hissued : s.issued = [])
    (hgood : ∀ a ∈ s.attempts, a.Good proc_addr mp)
    (hfew : ∀ secnum, failures s.attempts secnum ≤ MAX_ERRORS)
    (hstatus : r = mp.COUNT ↔ ∀ i : ℕ, SECTOR_SIZE * i < mp.COUNT →
      (transferred s.attempts).count (mp.POSITION / SECTOR_SIZE + i) = 1) :
    TransferExact proc_addr mp (.returned r s) := by
  refine ⟨?_, hfew, ?_⟩
  · intro a ha
    rcases List.mem_append.mp ha with ha | ha
    · exact hgood a ha
    · rw [List.mem_singleton.mp ha, Rdwt.state, hissued]
      exact ⟨List.nil_sublist _, by simp, by simp, by simp⟩
  · intro r' s' he
    obtain ⟨rfl, rfl⟩ := Rdwt.returned.inj he
    exact hstatus

theorem Ended.transferExact (hq : Request mp) (hfits : SectorFits mp) (h : Ended proc_addr mp s k)
    (hissued : s'.issued = s.issued) (hattempts : s'.attempts = s.attempts) :
    TransferExact proc_addr mp (.returned (rdwtStatus mp.COUNT s) s') := by
  refine .of_returned (hissued.trans h.issued) ?_ ?_ ?_
  · rw [hattempts]
    exact h.good
  · rw [hattempts]
    exact h.few
  · rw [hattempts]
    exact (h.status_iff hq).trans (h.exact_iff hq hfits)

theorem Waits.transferExact (h : Waits proc_addr mp s k e) :
    TransferExact proc_addr mp (.waiting s) := by
  refine ⟨?_, h.past.few, ?_⟩
  · intro a ha
    rcases List.mem_append.mp ha with ha | ha
    · exact h.past.good a ha
    · rw [List.mem_singleton.mp ha]
      exact h.closes.attempt fun hok => absurd hok (by decide)
  · intro r s' he
    cases he

theorem step_stopped (h : s.waiting = false) (ev : Event) : step s ev = s := by
  unfold step
  rw [h]
  rfl

/-- The run of the events: the task still waits, or the transfer has come to an end. -/
theorem run_waits (hm : Sensible mp) (hq : Request mp) (h : Waits proc_addr mp s k e)
    (events : List Event) :
    ((∃ k e, Waits proc_addr mp (events.foldl step s) k e) ∧
        (events.foldl step s).patience + events.length ≤ s.patience) ∨
      ∃ k, Ended proc_addr mp (events.foldl step s) k := by
  have hstay : ∀ t ev, (∃ k, Ended proc_addr mp t k) → ∃ k, Ended proc_addr mp (step t ev) k := by
    rintro t ev ⟨k', hk⟩
    rw [step_stopped hk.waiting]
    exact ⟨k', hk⟩
  have hstep : ∀ t ev, True → (∃ k e, Waits proc_addr mp t k e) →
      ((∃ k e, Waits proc_addr mp (step t ev) k e) ∧ (step t ev).patience < t.patience) ∨
        ∃ k, Ended proc_addr mp (step t ev) k := by
    rintro t ev - ⟨k', e', ht⟩
    rcases step_waits hm hq.count ht ev with hless | ⟨k'', hend, -⟩
    · exact .inl hless
    · exact .inr ⟨k'', hend⟩
  exact foldl_countdown hstep hstay events (fun _ _ => trivial) ⟨k, e, h⟩

/-- The request behind `prepare`. -/
theorem doRdwt_started {t : Fd} (h : prepare proc_addr mp s = .inr t) (events : List Event) :
    doRdwt proc_addr mp s events =
      if (doXfer t).1 then
        if (events.foldl step { (doXfer t).2 with waiting := true }).waiting then
          .waiting (events.foldl step { (doXfer t).2 with waiting := true })
        else .returned
          (rdwtStatus mp.COUNT (events.foldl step { (doXfer t).2 with waiting := true }))
          (deselect (events.foldl step { (doXfer t).2 with waiting := true }))
      else .returned (rdwtStatus mp.COUNT (doXfer t).2) (doXfer t).2 := by
  rw [doRdwt, h]

/-- The task waits for the first command, or there are no such sectors. -/
theorem first_command (hm : Sensible mp) {t : Fd} (h : Started proc_addr mp t 0 0)
    (hissued : t.issued = []) :
    ((doXfer t).1 = true ∧ Waits proc_addr mp { (doXfer t).2 with waiting := true } 0 0) ∨
      (NR_CYLINDERS ≤ t.cylinder ∧ doXfer t = (false, t)) := by
  rcases next_attempt hm h hissued with ⟨-, htrue, hasked, htimer, -, -, -⟩ | hbehind
  · refine .inl ⟨htrue, hasked.congr rfl rfl rfl rfl, rfl, ?_⟩
    dsimp only
    rw [htimer]
    decide
  · exact .inr hbehind

theorem exact_of_refused (hq : Request mp) (h : Refused proc_addr mp) (s : Fd) :
    FloppyExact proc_addr mp s := by
  obtain ⟨r, t, hprepare, hneg, hissued, hattempts⟩ := prepare_refused hq h s
  have hcall : ∀ events, doRdwt proc_addr mp s events = .returned r t := by
    intro events
    rw [doRdwt, hprepare]
  have hpos := hq.pos
  refine ⟨fun events => ?_, 0, fun events _ => by rw [hcall]; rfl⟩
  rw [hcall]
  refine .of_returned hissued (by simp [hattempts]) (fun _ => by simp [hattempts, failures]) ?_
  constructor
  · intro he
    omega
  · intro hall
    have hfirst := hall 0 (by simpa using hpos)
    rw [hattempts] at hfirst
    exact absurd hfirst (by simp [transferred])

theorem exact_of_fits (hq : Request mp) (hnot : ¬Refused proc_addr mp) (hfits : SectorFits mp)
    (s : Fd) : FloppyExact proc_addr mp s := by
  obtain ⟨t, hprepare, hstarted, hissued⟩ := prepare_starts hq hnot s
  have hm := sensible hq hnot hfits.1
  have hcall := doRdwt_started hprepare
  rcases first_command hm hstarted hissued with ⟨htrue, hwaits⟩ | ⟨-, hfalse⟩
  · simp only [if_pos htrue] at hcall
    refine ⟨fun events => ?_, Fd.patience { (doXfer t).2 with waiting := true } + 1,
      fun events hlong => ?_⟩
    · rw [hcall]
      rcases run_waits hm hq hwaits events with ⟨⟨k, e, hw⟩, -⟩ | ⟨k, hend⟩
      · rw [if_pos hw.waiting]
        exact hw.transferExact
      · rw [if_neg (by simp [hend.waiting])]
        exact hend.transferExact hq hfits rfl rfl
    · rw [hcall]
      rcases run_waits hm hq hwaits events with ⟨-, hsum⟩ | ⟨k, hend⟩
      · omega
      · rw [if_neg (by simp [hend.waiting])]
        rfl
  · have hend : Ended proc_addr mp { t with waiting := false } 0 := by
      obtain ⟨h1, h2, h3, h4, h5, h6, h7, h8, h9⟩ := hstarted
      exact ⟨rfl, hissued, h2, h3, h5, h6.le, h9.good, h9.moved, h9.few⟩
    have hstop : ∀ events, doRdwt proc_addr mp s events =
        .returned (rdwtStatus mp.COUNT { t with waiting := false }) t := by
      intro events
      rw [hcall, hfalse]
      rfl
    refine ⟨fun events => ?_, 0, fun events _ => by rw [hstop]; rfl⟩
    rw [hstop]
    exact hend.transferExact hq hfits rfl rfl

/-! ## Sectors of another part of the diskette -/

/-- Behind the last cylinder there are no sectors. -/
theorem behind_iff {n : ℤ} (h0 : 0 ≤ n) (mp : RdwtMess VirBytes) :
    NR_CYLINDERS ≤ (n.tdiv NR_SECTORS).tdiv (nr_heads (DTYPE mp.DEVICE)) ↔ diskSectors mp ≤ n := by
  have hsec : n.tdiv NR_SECTORS = n / 9 := Int.tdiv_eq_ediv_of_nonneg h0
  have htrack : 0 ≤ n / 9 := by omega
  have hcyls : NR_CYLINDERS = 80 := rfl
  have hsecs : NR_SECTORS = 9 := rfl
  rw [hsec, Int.tdiv_eq_ediv_of_nonneg htrack, diskSectors, hcyls, hsecs, nr_heads]
  split_ifs <;> omega

/-- A controller that has nothing to complain about. -/
def fine : Event := .interrupt okStatus

/-- Where the sectors are on the diskette, they are transferred if nothing goes wrong. -/
theorem fine_returns (hq : Request mp) (hnot : ¬Refused proc_addr mp) (h0 : 0 ≤ startSector mp)
    (hin : startSector mp + mp.COUNT / SECTOR_SIZE ≤ diskSectors mp) (s : Fd) :
    ∃ events s' k, doRdwt proc_addr mp s events = .returned mp.COUNT s' ∧
      SECTOR_SIZE * (k : ℕ) = mp.COUNT ∧
      transferred s'.attempts = (List.range k).map fun i : ℕ => startSector mp + i := by
  have hsize : SECTOR_SIZE = 512 := rfl
  have hpos := hq.pos
  have hmul := hq.count
  obtain ⟨t, hprepare, hstarted, hissued⟩ := prepare_starts hq hnot s
  have hm := sensible hq hnot h0
  rcases first_command hm hstarted hissued with ⟨htrue, hwaits⟩ | ⟨hbehind, -⟩
  · obtain ⟨u, hu⟩ : ∃ u : Fd, { (doXfer t).2 with waiting := true } = u := ⟨_, rfl⟩
    rw [hu] at hwaits
    have hstay : ∀ (v : Fd) (ev : Event), (∃ k, Ended proc_addr mp v k ∧
        (v.xfer.x_count = 0 ∨ NR_CYLINDERS ≤ v.cylinder)) → ∃ k, Ended proc_addr mp (step v ev) k ∧
        ((step v ev).xfer.x_count = 0 ∨ NR_CYLINDERS ≤ (step v ev).cylinder) := by
      rintro v ev ⟨k, hk⟩
      rw [step_stopped hk.1.waiting]
      exact ⟨k, hk⟩
    have hstep : ∀ (v : Fd) (ev : Event), ev = fine → (∃ k e, Waits proc_addr mp v k e) →
        ((∃ k e, Waits proc_addr mp (step v ev) k e) ∧ (step v ev).patience < v.patience) ∨
          ∃ k, Ended proc_addr mp (step v ev) k ∧
            ((step v ev).xfer.x_count = 0 ∨ NR_CYLINDERS ≤ (step v ev).cylinder) := by
      rintro v ev hev ⟨k, e, hv⟩
      rcases step_waits hm hmul hv ev with hless | ⟨k', hend, hwhy⟩
      · exact .inl hless
      · exact .inr ⟨k', hend, hwhy hev⟩
    obtain ⟨k, hend, hwhy⟩ := foldl_final hstep hstay
      (fun ev hev => List.eq_of_mem_replicate hev : ∀ ev ∈ List.replicate (u.patience + 1) fine, _)
      ⟨0, 0, hwaits⟩ (by rw [List.length_replicate]; omega)
    have hall : SECTOR_SIZE * k = mp.COUNT := by
      have hleft := hend.left
      rcases hwhy with hzero | hbehind
      · rw [hend.x_count] at hzero
        omega
      · rw [Fd.cylinder, hend.x_secnum, hend.x_drive, behind_iff (by omega)] at hbehind
        rw [hsize] at hin hmul hleft ⊢
        omega
    refine ⟨List.replicate (u.patience + 1) fine, deselect _, k, ?_, hall, hend.moved⟩
    rw [doRdwt_started hprepare, if_pos htrue, hu, if_neg (by simp [hend.waiting]),
      (hend.status_iff hq).mpr hall]
  · rw [Fd.cylinder, hstarted.x_secnum, hstarted.x_drive, behind_iff (by simpa using h0)] at hbehind
    rw [hsize] at hin hmul
    simp only [Nat.cast_zero, add_zero] at hbehind
    omega

theorem not_exact_elsewhere (hq : Request mp) (hnot : ¬Refused proc_addr mp)
    (h0 : 0 ≤ startSector mp) (hne : startSector mp ≠ mp.POSITION / SECTOR_SIZE)
    (hin : startSector mp + mp.COUNT / SECTOR_SIZE ≤ diskSectors mp) (s : Fd) :
    ¬FloppyExact proc_addr mp s := by
  intro h
  obtain ⟨events, s', k, hcall, hall, hmoved⟩ := fine_returns hq hnot h0 hin s
  have hexact := h.1 events
  rw [hcall] at hexact
  have hsize : SECTOR_SIZE = 512 := rfl
  have hpos := hq.pos
  have hfirst := (hexact.status _ _ rfl).mp rfl 0 (by rw [hsize]; omega)
  have hmem : mp.POSITION / SECTOR_SIZE + ((0 : ℕ) : ℤ) ∈ transferred s'.attempts := by
    apply List.count_pos_iff.mp
    omega
  rw [hmoved] at hmem
  obtain ⟨j, hj, hjk⟩ := List.mem_map.mp hmem
  have hlt := List.mem_range.mp hj
  refine hne (start_of_inside hq (by omega) ?_)
  rw [hsize] at hall hin hjk ⊢
  omega

/-! ## Negative sector numbers -/

/-- After a restore the arm is believed on cylinder 0. -/
theorem fine_restore (hw : s.waiting = true) (hcmd : s.xfer.x_cmd = .RESTORE) :
    step s fine = { (doXfer { s with
        curcyl := Function.update s.curcyl (DRIVE s.xfer.x_drive) 0 }).2 with
      waiting := (doXfer { s with
        curcyl := Function.update s.curcyl (DRIVE s.xfer.x_drive) 0 }).1 } := by
  have hok : xferOk okStatus s = (.X_AGAIN, { s with
      curcyl := Function.update s.curcyl (DRIVE s.xfer.x_drive) 0 }) := by
    unfold xferOk
    simp only [hcmd]
    exact if_neg (not_not.mpr okStatus_bits.2.2.2.2)
  have hstep : step s fine = fdcint okStatus s := by rw [fine, step, if_pos hw]
  rw [hstep, fdcint, xferDone_again (by rw [hok]), hok, proceed]
  simp only [Bool.not_not]

/-- After a seek `do_xfer` goes on. -/
theorem fine_seek (hw : s.waiting = true) (hcmd : s.xfer.x_cmd = .SEEK) :
    step s fine = { (doXfer s).2 with waiting := (doXfer s).1 } := by
  have hok : xferOk okStatus s = (.X_AGAIN, s) := by
    unfold xferOk
    simp only [hcmd]
    exact if_neg (not_not.mpr okStatus_bits.2.2.2.1)
  have hstep : step s fine = fdcint okStatus s := by rw [fine, step, if_pos hw]
  rw [hstep, fdcint, xferDone_again (by rw [hok]), hok, proceed]
  simp only [Bool.not_not]

/-- The cylinder is -1, which stands for an arm that is lost, and so the arm is restored and moved
again and again. -/
structure Cycles (s : Fd) : Prop where
  waiting : s.waiting = true
  format : FORMAT s.xfer.x_drive = false
  cylinder : s.cylinder = -1
  cmd : s.xfer.x_cmd = .RESTORE ∨ s.xfer.x_cmd = .SEEK

theorem doXfer_cycles (hfmt : FORMAT s.xfer.x_drive = false) (hcyl : s.cylinder = -1) :
    (doXfer s).1 = true ∧ Cycles { (doXfer s).2 with waiting := (doXfer s).1 } := by
  obtain ⟨c, htrue, hgave, hcases⟩ := doXfer_spec hfmt (by rw [hcyl]; decide)
  have hxfer := hgave.xfer
  refine ⟨htrue, htrue, ?_, ?_, ?_⟩
  · show FORMAT (doXfer s).2.xfer.x_drive = false
    rw [hxfer]
    exact hfmt
  · show (doXfer s).2.cylinder = -1
    rw [Fd.cylinder, hxfer]
    exact hcyl
  · show (doXfer s).2.xfer.x_cmd = .RESTORE ∨ (doXfer s).2.xfer.x_cmd = .SEEK
    rw [hxfer]
    rcases hcases with ⟨-, hc, -⟩ | ⟨-, -, hc, -⟩ | ⟨hne, heq, -⟩
    · exact .inl hc
    · exact .inr hc
    · exact absurd (heq.trans hcyl) hne

theorem Cycles.step (h : Cycles s) : Cycles (step s fine) := by
  rcases h.cmd with hcmd | hcmd
  · rw [fine_restore h.waiting hcmd]
    exact (@doXfer_cycles { s with
      curcyl := Function.update s.curcyl (DRIVE s.xfer.x_drive) 0 } h.format h.cylinder).2
  · rw [fine_seek h.waiting hcmd]
    exact (doXfer_cycles h.format h.cylinder).2

/-- A request that starts with such a cylinder never returns. -/
theorem never_returns (hq : Request mp) (hnot : ¬Refused proc_addr mp)
    (hcyl : ((startSector mp).tdiv NR_SECTORS).tdiv (nr_heads (DTYPE mp.DEVICE)) = -1) (s : Fd)
    (n : ℕ) : (doRdwt proc_addr mp s (List.replicate n fine)).isReturned = false := by
  obtain ⟨t, hprepare, hstarted, -⟩ := prepare_starts hq hnot s
  have hcyl' : t.cylinder = -1 := by
    rw [Fd.cylinder, hstarted.x_secnum, hstarted.x_drive, Nat.cast_zero, add_zero]
    exact hcyl
  obtain ⟨htrue, hcycles⟩ := doXfer_cycles (by rw [hstarted.x_drive, hq.format]) hcyl'
  have hrun : ∀ u, Cycles u → Cycles ((List.replicate n fine).foldl step u) := by
    induction n with
    | zero => exact fun u hu => hu
    | succ n ih => exact fun u hu => ih _ hu.step
  rw [htrue] at hcycles
  rw [doRdwt_started hprepare, if_pos htrue, if_pos (hrun _ hcycles).waiting]
  rfl

/-- A sector with a negative number is transferred. -/
def Fd.Astray (s : Fd) : Prop :=
  ∃ c ∈ s.issued, (c.cmd = .F_READ ∨ c.cmd = .F_WRITE) ∧ c.xfer.x_secnum < 0

/-- The sector is transferred at once or after a seek. -/
theorem astray_after_restore (hfmt : FORMAT s.xfer.x_drive = false) (hneg : s.xfer.x_secnum < 0)
    (hcyl : s.cylinder < NR_CYLINDERS) (hne : s.cylinder ≠ -1) (harm : s.arm ≠ -1) :
    (doXfer s).1 = true ∧ ((doXfer s).2.Astray ∨
      (step { (doXfer s).2 with waiting := true } fine).Astray) := by
  have htransfer : ∀ u : Fd, FORMAT u.xfer.x_drive = false → u.xfer.x_secnum < 0 →
      u.cylinder < NR_CYLINDERS → u.arm ≠ -1 → u.arm = u.cylinder → (doXfer u).2.Astray := by
    intro u hufmt huneg hucyl hulost hu
    obtain ⟨c, -, hgave, hcases⟩ := doXfer_spec hufmt hucyl
    rcases hcases with ⟨h, -⟩ | ⟨-, h, -⟩ | ⟨-, -, htr, -⟩
    · exact absurd h hulost
    · exact absurd hu h
    · refine ⟨c, ?_, htr.cmd ▸ transferCmd_cases _, ?_⟩
      · rw [hgave.issued]
        exact List.mem_append_right _ (List.mem_singleton_self c)
      · rw [hgave.sent, hgave.xfer]
        exact huneg
  obtain ⟨c, htrue, hgave, hcases⟩ := doXfer_spec hfmt hcyl
  refine ⟨htrue, ?_⟩
  rcases hcases with ⟨h, -⟩ | ⟨-, -, hc, hcurcyl⟩ | ⟨-, hat, -⟩
  · exact absurd h harm
  · have hcmd : (doXfer s).2.xfer.x_cmd = .SEEK := by rw [hgave.xfer, hc]
    have hstep : step { (doXfer s).2 with waiting := true } fine = _ := fine_seek rfl hcmd
    rw [hstep]
    obtain ⟨u, hu⟩ : ∃ u : Fd, { (doXfer s).2 with waiting := true } = u := ⟨_, rfl⟩
    have huxfer : u.xfer = { s.xfer with x_cmd := c.cmd } := by rw [← hu, ← hgave.xfer]
    have hucyl : u.cylinder = s.cylinder := by
      rw [Fd.cylinder, huxfer]
      rfl
    have huarm : u.arm = s.cylinder := by
      have hucurcyl : u.curcyl = (doXfer s).2.curcyl := by rw [← hu]
      rw [Fd.arm, hucurcyl, hcurcyl, huxfer, Function.update_self]
    rw [hu]
    refine .inr (htransfer u ?_ ?_ ?_ ?_ ?_)
    · rw [huxfer]
      exact hfmt
    · rw [huxfer]
      exact hneg
    · rwa [hucyl]
    · rwa [huarm]
    · rw [huarm, hucyl]
  · exact .inl (htransfer s hfmt hneg hcyl harm hat)

/-- No sector of an exact attempt has a negative number. -/
theorem not_exact_of_astray {r : Rdwt} (h : r.state.Astray) : ¬TransferExact proc_addr mp r := by
  obtain ⟨c, hc, hcmd, hneg⟩ := h
  intro hexact
  have hgood := hexact.attempts _ (List.mem_append_right _ (List.mem_singleton_self _))
  obtain ⟨i, hi⟩ := hgood.exact c hc hcmd
  obtain ⟨hcyl, hhead, hsector, hsecnum⟩ := hi.place
  have hsecs : NR_SECTORS = 9 := rfl
  rw [hsecs] at hsector hsecnum
  have htrack : 0 ≤ c.regs.fdc_tr * nr_heads (DTYPE mp.DEVICE) :=
    Int.mul_nonneg hcyl.1 (by omega)
  omega

/-- With a negative number a transfer goes astray, or it does not come to an end. -/
theorem not_exact_negative (hq : Request mp) (hnot : ¬Refused proc_addr mp)
    (hneg : startSector mp < 0) (s : Fd) : ¬FloppyExact proc_addr mp s := by
  rintro ⟨hexact, bound, hbound⟩
  obtain ⟨t, hprepare, hstarted, hissued⟩ := prepare_starts hq hnot s
  have hfmt : FORMAT t.xfer.x_drive = false := by rw [hstarted.x_drive, hq.format]
  have htneg : t.xfer.x_secnum < 0 := by simpa [hstarted.x_secnum] using hneg
  have htcyl : t.cylinder < NR_CYLINDERS := by
    have htrack : t.xfer.x_secnum.tdiv NR_SECTORS ≤ (0 : ℤ).tdiv NR_SECTORS :=
      Int.tdiv_le_tdiv (by decide) htneg.le
    have hheads : 0 < nr_heads (DTYPE t.xfer.x_drive) := by
      rw [nr_heads]
      split_ifs <;> decide
    have hle : t.cylinder ≤ (0 : ℤ).tdiv (nr_heads (DTYPE t.xfer.x_drive)) :=
      Int.tdiv_le_tdiv hheads (by rwa [Int.zero_tdiv] at htrack)
    rw [Int.zero_tdiv] at hle
    exact hle.trans_lt (by decide)
  by_cases hcyl : t.cylinder = -1
  · have hnever := never_returns hq hnot (by
      rwa [Fd.cylinder, hstarted.x_secnum, hstarted.x_drive, Nat.cast_zero, add_zero] at hcyl) s bound
    rw [hbound _ (by rw [List.length_replicate])] at hnever
    exact absurd hnever (by decide)
  · -- What happens when nothing goes wrong leads astray.
    have hcall := doRdwt_started hprepare
    have hwrong : ∀ (events : List Event) (u : Fd), (doXfer t).1 = true →
        events.foldl step { (doXfer t).2 with waiting := true } = u → u.Astray → False := by
      intro events u htrue hu hastray
      have hx := hexact events
      rw [hcall, if_pos htrue, hu] at hx
      by_cases hw : u.waiting = true
      · rw [if_pos hw] at hx
        exact not_exact_of_astray (r := .waiting u) hastray hx
      · rw [if_neg hw] at hx
        exact not_exact_of_astray (r := .returned _ (deselect u)) hastray hx
    by_cases harm : t.arm = -1
    · obtain ⟨c, htrue, hgave, hcases⟩ := doXfer_spec hfmt htcyl
      have hcmd : (doXfer t).2.xfer.x_cmd = .RESTORE := by
        rw [hgave.xfer]
        rcases hcases with ⟨-, hc, -⟩ | ⟨h, -⟩ | ⟨h, -⟩
        · exact hc
        · exact absurd harm h
        · exact absurd harm h
      obtain ⟨u, hu⟩ : ∃ u : Fd, { (doXfer t).2 with
          waiting := true
          curcyl := Function.update (doXfer t).2.curcyl (DRIVE (doXfer t).2.xfer.x_drive) 0 } = u :=
        ⟨_, rfl⟩
      have hstep : step { (doXfer t).2 with waiting := true } fine =
          { (doXfer u).2 with waiting := (doXfer u).1 } := by
        rw [← hu]
        exact fine_restore rfl hcmd
      have huxfer : u.xfer = { t.xfer with x_cmd := c.cmd } := by rw [← hu, ← hgave.xfer]
      have hucyl : u.cylinder = t.cylinder := by
        rw [Fd.cylinder, huxfer]
        rfl
      have huarm : u.arm = 0 := by
        rw [← hu]
        exact Function.update_self ..
      obtain ⟨htrue', hastray⟩ := astray_after_restore (by rw [huxfer]; exact hfmt)
        (by rw [huxfer]; exact htneg) (by rwa [hucyl]) (by rwa [hucyl]) (by rw [huarm]; decide)
      rw [htrue'] at hstep
      rcases hastray with hastray | hastray
      · exact hwrong [fine] _ htrue hstep hastray
      · refine hwrong [fine, fine] _ htrue ?_ hastray
        rw [List.foldl_cons, hstep]
        rfl
    · obtain ⟨htrue, hastray | hastray⟩ := astray_after_restore hfmt htneg htcyl hcyl harm
      · exact hwrong [] _ htrue rfl hastray
      · exact hwrong [fine] _ htrue rfl hastray

/-- Floppy transfers terminate and are exact if and only if the request is refused or the number of
its first sector, as an `int`, fits. -/
theorem floppy_exact (proc_addr : ℤ → ProcMap) (mp : RdwtMess VirBytes) (s : Fd)
    (hpos : 0 < mp.COUNT) (hcount : mp.COUNT % SECTOR_SIZE = 0)
    (hposition : mp.POSITION % SECTOR_SIZE = 0) (hformat : FORMAT mp.DEVICE = false) :
    FloppyExact proc_addr mp s ↔ Refused proc_addr mp ∨ SectorFits mp := by
  have hq : Request mp := ⟨hpos, hcount, hposition, hformat⟩
  constructor
  · intro h
    by_contra hnot
    obtain ⟨hnot, hfits⟩ := not_or.mp hnot
    by_cases h0 : 0 ≤ startSector mp
    · have hne : startSector mp ≠ mp.POSITION / SECTOR_SIZE := fun he => hfits ⟨h0, .inl he⟩
      have hin : ¬diskSectors mp < startSector mp + mp.COUNT / SECTOR_SIZE :=
        fun hlt => hfits ⟨h0, .inr hlt⟩
      exact not_exact_elsewhere hq hnot h0 hne (not_lt.mp hin) s h
    · exact not_exact_negative hq hnot (not_le.mp h0) s h
  · intro h
    by_cases hr : Refused proc_addr mp
    · exact exact_of_refused hq hr s
    · exact exact_of_fits hq hr (h.resolve_left hr) s

/-- The driver when it starts. -/
def bootFd : Fd where
  xfer := ⟨0, 0, 0, 0, 0, 0, .IRUPT⟩
  curcyl _ := -1
  selected := 0
  selectic := 30
  motoron := 0
  regs := ⟨IRUPT, 0, 0, 0, 0, 0⟩
  waiting := false
  issued := []
  attempts := []

/-- A block of the first drive is read. -/
def blockRequest (block : ℤ) : RdwtMess VirBytes where
  m_type := DISK_READ
  DEVICE := 0
  PROC_NR := 0
  COUNT := 1024
  POSITION := 1024 * block
  ADDRESS := 0x12000

theorem floppy_exact_super_block : FloppyExact (fun _ => middleProc) (blockRequest 1) bootFd :=
  (floppy_exact (fun _ => middleProc) (blockRequest 1) bootFd (by decide) (by decide) (by decide)
    (by decide)).mpr (.inr ⟨by decide, .inl (by decide)⟩)

/-- The number of the first sector of block 32763 is -10, as an `int`. -/
theorem lost_arm : ¬FloppyExact (fun _ => middleProc) (blockRequest 32763) bootFd := by
  rintro ⟨-, bound, hbound⟩
  have hq : Request (blockRequest 32763) := ⟨by decide, by decide, by decide, by decide⟩
  have hnot : ¬Refused (fun _ => middleProc) (blockRequest 32763) := by
    rintro (h | h | h) <;> exact absurd h (by decide)
  have hnever := never_returns hq hnot (by decide) bootFd bound
  rw [hbound _ (by rw [List.length_replicate])] at hnever
  exact absurd hnever (by decide)

end Minix.Kernel.Floppy
