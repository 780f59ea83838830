import Radmind.Fsdiff.Order

/-!
# The loop on a negative directory

A pass of the loop passes the path of the next transcript line to `transcript`, which
consumes the line: a second call of `transcript_select` returns the same line, and it
matches.  The exclude check comes first, however, and a path that takes it leaves the
line where it is.
-/

namespace Radmind

/-! ## Selecting twice -/

/-- A transcript has a name on its line, or nothing left to read. -/
structure Transcript.Sound (t : Transcript) : Prop where
  named : t.tEof = false → NulFree t.tPinfo.piName
  atEnd : t.tEof = true → t.tType ≠ .null → t.tIn = []

def Cursors.Sound (c : Cursors) : Prop := ∀ t ∈ c.tranHead, t.Sound

theorem transcriptParse_sound {cfg : ParseConfig} {buf buf' : List Byte} {t t' : Transcript}
    (ht : t.Sound) (h : transcriptParse cfg buf t = .ok (t', buf')) : t'.Sound := by
  obtain ⟨hfile, hnull, ⟨heof, hin, -⟩ | ⟨heof, hlt, hnul, -⟩⟩ := transcriptParse_cases h
  · exact ⟨fun h => by simp [heof] at h, fun _ _ => hin⟩
  · refine ⟨fun _ => hnul, fun h => ?_⟩
    rw [ht.atEnd (heof ▸ h) hnull] at hlt
    exact absurd hlt (Nat.not_lt_zero _)

theorem scan_append (cs : Bool) (b : Nat × Transcript) (n : Nat) (us vs : List Transcript) :
    scan cs b n (us ++ vs) = scan cs (scan cs b n us) (n + us.length) vs := by
  induction us generalizing b n with
  | nil => rfl
  | cons u us ih =>
    have hlen : n + (u :: us).length = n + 1 + us.length := by
      rw [List.length_cons]
      omega
    rw [List.cons_append, scan, scan, hlen]
    split_ifs <;> exact ih _ _

/-- The first loop stays at `begin_tran` or goes to a transcript behind it. -/
theorem scan_fst (cs : Bool) (b : Nat × Transcript) (n : Nat) (us : List Transcript) :
    scan cs b n us = b ∨ n ≤ (scan cs b n us).1 := by
  induction us generalizing b n with
  | nil => exact .inl rfl
  | cons u us ih =>
    have hnext : n ≤ (scan cs (n, u) (n + 1) us).1 := by
      rcases ih (n, u) (n + 1) with h | h
      · rw [h]
      · omega
    rw [scan]
    split_ifs
    · exact .inr hnext
    · exact .inr hnext
    · exact (ih b (n + 1)).imp_right fun h => by omega

/-- A transcript the first loop passes by. -/
def Passed (cs : Bool) (t u : Transcript) : Prop :=
  t.tEof = false ∧ (u.tEof = true ∨ ¬ pathcasecmp u.tPinfo.piName t.tPinfo.piName cs < 0)

theorem scan_eq_self {cs : Bool} {b : Nat × Transcript} {n : Nat} (hb : b.1 < n)
    {us : List Transcript} : scan cs b n us = b ↔ ∀ u ∈ us, Passed cs b.2 u := by
  induction us generalizing n with
  | nil => simp [scan]
  | cons u us ih =>
    have hnext : scan cs (n, u) (n + 1) us ≠ b := by
      intro h
      rcases scan_fst cs (n, u) (n + 1) us with h' | h'
      · have := congrArg Prod.fst (h'.symm.trans h)
        simp only at this
        omega
      · rw [h] at h'
        omega
    rw [scan, List.forall_mem_cons]
    by_cases heof : b.2.tEof = true
    · rw [if_pos heof]
      exact ⟨fun h => absurd h hnext, fun h => absurd heof (by simp [h.1.1])⟩
    · rw [if_neg heof]
      have hpassed : Passed cs b.2 u ↔
          ¬ (!u.tEof && decide (pathcasecmp u.tPinfo.piName b.2.tPinfo.piName cs < 0)) = true := by
        simp only [Passed, Bool.and_eq_true, Bool.not_eq_true', decide_eq_true_eq, not_and]
        constructor
        · intro h hu
          exact h.2.resolve_left (by simp [hu])
        · intro h
          refine ⟨by simpa using heof, ?_⟩
          cases hu : u.tEof with
          | true => exact .inl rfl
          | false => exact .inr (h hu)
      split_ifs with hless
      · exact ⟨fun h => absurd h hnext, fun h => absurd hless (hpassed.mp h.1)⟩
      · rw [ih (by omega)]
        exact ⟨fun h => ⟨hpassed.mpr hless, h⟩, fun h => h.2⟩

/-- What the second loop leaves behind: transcripts that do not match, and some that
are at their end. -/
theorem moveAhead_left {cfg : ParseConfig} {t : Transcript} (ht : NulFree t.tPinfo.piName)
    {buf buf' : List Byte} {ts ts' : List Transcript} (hts : ∀ u ∈ ts, u.Sound)
    (hpassed : ∀ u ∈ ts, Passed cfg.caseSensitive t u)
    (h : moveAhead cfg t.tPinfo.piName buf ts = .ok (ts', buf')) :
    ∀ u ∈ ts', u.Sound ∧ Passed cfg.caseSensitive t u ∧
      (pathcasecmp t.tPinfo.piName u.tPinfo.piName cfg.caseSensitive = 0 →
        u.tType ≠ .null ∧ u.tEof = true ∧ u.tIn = []) := by
  induction ts generalizing buf buf' ts' with
  | nil =>
    obtain ⟨rfl, -⟩ := Prod.mk.inj (Except.ok.inj h)
    exact fun u hu => absurd hu List.not_mem_nil
  | cons v ts ih =>
    rw [moveAhead] at h
    split at h
    · exact absurd h (by simp)
    next v' buf₁ hv =>
    split at h
    · exact absurd h (by simp)
    next ts₁ buf₂ hts' =>
    obtain ⟨rfl, -⟩ := Prod.mk.inj (Except.ok.inj h)
    have hsound := hts v List.mem_cons_self
    have hpass := hpassed v List.mem_cons_self
    intro u hu
    rcases List.mem_cons.mp hu with rfl | hu
    swap
    · exact ih (fun u hu => hts u (List.mem_cons_of_mem _ hu))
        (fun u hu => hpassed u (List.mem_cons_of_mem _ hu)) hts' u hu
    split at hv
    swap
    · next hne =>
      obtain ⟨rfl, -⟩ := Prod.mk.inj (Except.ok.inj hv)
      exact ⟨hsound, hpass, fun h => absurd h hne⟩
    next heq =>
    have hu := transcriptParse_sound hsound hv
    obtain ⟨hfile, hnull, ⟨heof, hin, -⟩ | ⟨heof, hlt, hnul, hpos⟩⟩ := transcriptParse_cases hv
    · have htype : u.tType ≠ .null := fun h =>
        hnull ((congrArg TranFile.tType hfile).symm.trans h)
      exact ⟨hu, ⟨hpass.1, .inl heof⟩, fun _ => ⟨htype, heof, hin⟩⟩
    · have hveof : v.tEof = false := by
        by_contra hveof
        rw [hsound.atEnd (by simpa using hveof) hnull] at hlt
        exact absurd hlt (Nat.not_lt_zero _)
      have hvnul := hsound.named hveof
      -- the new line comes after the old one, which matches
      have hpos' : 0 < pathcasecmp u.tPinfo.piName t.tPinfo.piName cfg.caseSensitive := by
        have hcongr := pathcasecmp_congr cfg.caseSensitive ht hvnul hnul heq
        have hswap := pathcasecmp_swap cfg.caseSensitive hvnul hnul
        have hswap' := pathcasecmp_swap cfg.caseSensitive ht hnul
        exact hswap'.1.mp (hcongr.1.mpr (hswap.1.mpr hpos))
      refine ⟨hu, ⟨hpass.1, .inr (by omega)⟩, fun h => ?_⟩
      rw [(pathcasecmp_swap cfg.caseSensitive ht hnul).2] at h
      omega

theorem moveAhead_again {cfg : ParseConfig} {name : CStr} {ts : List Transcript}
    (h : ∀ u ∈ ts, pathcasecmp name u.tPinfo.piName cfg.caseSensitive = 0 →
      u.tType ≠ .null ∧ u.tEof = true ∧ u.tIn = []) (buf : List Byte) :
    moveAhead cfg name buf ts = .ok (ts, buf) := by
  induction ts with
  | nil => rfl
  | cons u ts ih =>
    have hu : (if pathcasecmp name u.tPinfo.piName cfg.caseSensitive = 0 then
        transcriptParse cfg buf u else .ok (u, buf)) = .ok (u, buf) := by
      split_ifs with heq
      · obtain ⟨hnull, heof, hin⟩ := h u List.mem_cons_self heq
        exact transcriptParse_eof hnull heof hin buf
      · rfl
    rw [moveAhead, hu]
    simp only
    rw [ih fun u hu => h u (List.mem_cons_of_mem _ hu)]

section

variable {cfg : SelectConfig} {c c' : Cursors} {i : Nat}

/-- A round of `transcript_select` leaves cursors on which it does nothing more. -/
theorem selectPass_again (hc : c.Sound) {t : Transcript} (h : selectPass cfg c = .ok (c', i, t)) :
    c'.Sound ∧ ∀ warned,
      selectPass cfg { c' with warned := warned } = .ok ({ c' with warned := warned }, i, t) := by
  have hget := (selectPass_spec h).1
  unfold selectPass at h
  split at h
  · exact absurd h (by simp)
  next head rest hhead =>
  split at h
  next i₁ t₁ hscan =>
  split at h
  · exact absurd h (by simp)
  next moved buf hm =>
  obtain ⟨rfl, hit⟩ := Prod.mk.inj (Except.ok.inj h)
  obtain ⟨rfl, rfl⟩ := Prod.mk.inj hit
  rw [hhead] at hget hm
  have hi := (List.getElem?_eq_some_iff.mp hget).1
  rw [List.length_cons] at hi
  rw [List.drop_succ_cons] at hm
  -- the scan is through with `begin_tran` before the transcripts that were moved
  have hlen : 1 + (rest.take i₁).length = i₁ + 1 := by
    rw [List.length_take]
    omega
  have hstart : scan cfg.caseSensitive (0, head) 1 (rest.take i₁) = (i₁, t₁) := by
    have hsplit := hscan
    rw [← List.take_append_drop i₁ rest, scan_append, hlen] at hsplit
    rcases scan_fst cfg.caseSensitive (scan cfg.caseSensitive (0, head) 1 (rest.take i₁)) (i₁ + 1)
      (rest.drop i₁) with hstay | hgo
    · exact hstay.symm.trans hsplit
    · rw [hsplit] at hgo
      exact absurd hgo (by simp)
  have hpassed : ∀ u ∈ rest.drop i₁, Passed cfg.caseSensitive t₁ u := by
    refine (scan_eq_self (b := (i₁, t₁)) (n := i₁ + 1) (Nat.lt_succ_self _)).mp ?_
    rw [← List.take_append_drop i₁ rest, scan_append, hlen, hstart] at hscan
    exact hscan
  have hsound : ∀ u ∈ rest.drop i₁, u.Sound := fun u hu =>
    hc u (hhead ▸ List.mem_cons_of_mem _ (List.mem_of_mem_drop hu))
  have hleft : ∀ u ∈ moved, u.Sound ∧ Passed cfg.caseSensitive t₁ u ∧
      (pathcasecmp t₁.tPinfo.piName u.tPinfo.piName cfg.caseSensitive = 0 →
        u.tType ≠ .null ∧ u.tEof = true ∧ u.tIn = []) := by
    cases hdrop : rest.drop i₁ with
    | nil =>
      rw [hdrop] at hm
      obtain ⟨rfl, -⟩ := Prod.mk.inj (Except.ok.inj hm)
      exact fun u hu => absurd hu List.not_mem_nil
    | cons v vs =>
      have heof := (hpassed v (hdrop ▸ List.mem_cons_self)).1
      have hnul := (hc t₁ (hhead ▸ List.mem_of_getElem? hget)).named heof
      exact moveAhead_left hnul hsound hpassed hm
  have hhead' : c.tranHead.take (i₁ + 1) ++ moved = head :: (rest.take i₁ ++ moved) := by
    rw [hhead, List.take_succ_cons, List.cons_append]
  refine ⟨fun u hu => ?_, fun warned => ?_⟩
  · simp only [hhead', List.mem_cons, List.mem_append] at hu
    rcases hu with rfl | hu | hu
    · exact hc u (hhead ▸ List.mem_cons_self)
    · exact hc u (hhead ▸ List.mem_cons_of_mem _ (List.mem_of_mem_take hu))
    · exact (hleft u hu).1
  · have hscan' : scan cfg.caseSensitive (0, head) 1 (rest.take i₁ ++ moved) = (i₁, t₁) := by
      rw [scan_append, hlen, hstart]
      exact (scan_eq_self (b := (i₁, t₁)) (Nat.lt_succ_self _)).mpr fun u hu => (hleft u hu).2.1
    have hdrop : (head :: (rest.take i₁ ++ moved)).drop (i₁ + 1) = moved := by
      rw [List.drop_succ_cons, List.drop_append_of_le_length (by rw [List.length_take]; omega),
        List.drop_take_self, List.nil_append]
    have htake : (head :: (rest.take i₁ ++ moved)).take (i₁ + 1) = head :: rest.take i₁ := by
      rw [List.take_succ_cons, List.take_append_of_le_length (by rw [List.length_take]; omega),
        List.take_take, min_self]
    unfold selectPass
    simp only [hhead', hscan', hdrop, htake,
      moveAhead_again (fun u hu => (hleft u hu).2.2) buf]
    rfl

theorem advance_sound (hc : c.Sound) (h : advance cfg c i = .ok c') : c'.Sound := by
  unfold advance at h
  split at h
  · exact absurd h (by simp)
  next t ht =>
  split at h
  · exact absurd h (by simp)
  next t' buf hparse =>
  obtain rfl := Except.ok.inj h
  intro u hu
  rcases List.mem_or_eq_of_mem_set hu with hu | rfl
  · exact hc u hu
  · exact transcriptParse_sound (hc t (List.mem_of_getElem? ht)) hparse

/-- Cursors on which `transcript_select` does nothing but return `i`. -/
def Settled (cfg : SelectConfig) (c : Cursors) (i : Nat) : Prop :=
  ∀ warned, transcriptSelect cfg { c with warned := warned } = .ok ({ c with warned := warned }, i)

theorem selectLoop_settled {fuel : Nat} (hc : c.Sound) (h : selectLoop cfg fuel c = .ok (c', i)) :
    c'.Sound ∧ Settled cfg c' i ∧ ∃ t, c'.tranHead[i]? = some t := by
  induction fuel generalizing c with
  | zero => exact absurd h (by simp [selectLoop])
  | succ fuel ih =>
    rw [selectLoop] at h
    split at h
    · exact absurd h (by simp)
    next c₁ i₁ t hpass =>
    obtain ⟨hsound, hagain⟩ := selectPass_again hc hpass
    have hget := (selectPass_spec hpass).2.1
    split at h
    · next hstop =>
      obtain ⟨rfl, rfl⟩ := Prod.mk.inj (Except.ok.inj h)
      refine ⟨hsound, fun warned => ?_, t, hget⟩
      rw [transcriptSelect, selectLoop, hagain warned]
      simp only [if_pos hstop]
    · split at h
      · exact absurd h (by simp)
      next c₂ hadv =>
      have hwarn : (warn cfg t c₁).Sound := by
        intro u hu
        rw [warn_tranHead] at hu
        exact hsound u hu
      exact ih (advance_sound hwarn hadv) h

/-- A second call of `transcript_select` changes nothing. -/
theorem transcriptSelect_settled (hc : c.Sound) (h : transcriptSelect cfg c = .ok (c', i)) :
    c'.Sound ∧ Settled cfg c' i ∧ ∃ t, c'.tranHead[i]? = some t :=
  selectLoop_settled hc h

end

/-! ## No call of transcript runs on for ever -/

theorem hardlinkChanged_ne_outOfFuel (devHead : List Devlist) (p : PathInfo) (set : Bool) :
    hardlinkChanged devHead p set ≠ .error .outOfFuel := by
  unfold hardlinkChanged
  split
  · simp
  · split <;> simp

theorem printRecord_ne_outOfFuel (cfg : PrintConfig) (fs : Option PathInfo) (isMinus : Bool)
    (flag : PrFlag) (cur : PathInfo) : printRecord cfg fs isMinus flag cur ≠ .error .outOfFuel := by
  have hsum : ∀ e, printCksum cfg isMinus cur = .error e → e ≠ .outOfFuel := by
    intro e h
    unfold printCksum at h
    split at h
    · split at h
      · obtain rfl := Except.error.inj h
        simp
      · simp at h
    · simp at h
  have htime : ∀ cur, printMtime fs flag cur ≠ .error .outOfFuel := by
    intro cur h
    unfold printMtime at h
    split at h
    · split at h <;> simp at h
    · simp at h
  intro h
  unfold printRecord at h
  split at h
  · simp at h
  split at h
  case h_7 | h_8 =>
    split at h
    · simp at h
    · simp at h
  case h_9 | h_10 =>
    split at h
    · next e he =>
      obtain rfl := Except.error.inj h
      exact hsum _ he rfl
    · exact htime _ h
  all_goals simp at h

theorem tPrint_ne_outOfFuel (cfg : PrintConfig) (pr : Printer) (fs : Option PathInfo)
    (tran : TranLine) (flag : PrFlag) : tPrint cfg pr fs tran flag ≠ .error .outOfFuel := by
  intro h
  unfold tPrint at h
  split at h
  · next e he =>
    obtain rfl := Except.error.inj h
    unfold markLinks at he
    split at he
    · simp at he
    · split at he
      · split at he
        · next hmark =>
          obtain rfl := Except.error.inj he
          exact hardlinkChanged_ne_outOfFuel _ _ _ hmark
        · simp at he
      · simp at he
  · simp only at h
    split at h
    · simp at h
    · split at h
      · next he =>
        obtain rfl := Except.error.inj h
        exact printRecord_ne_outOfFuel _ _ _ _ _ he
      · simp at h

section

variable {cfg : DiffConfig}

theorem compareFields_ne_outOfFuel (devHead : List Devlist) (fs : PathInfo) (tran : TranLine) :
    compareFields cfg devHead fs tran ≠ .error .outOfFuel := by
  have hfile : compareFile cfg fs tran ≠ .error .outOfFuel := by
    intro h
    unfold compareFile at h
    simp only at h
    split at h
    · simp at h
    split at h
    · simp at h
    split at h
    · split at h
      · next hsum =>
        obtain rfl := Except.error.inj h
        unfold sumFile at hsum
        split at hsum <;> simp at hsum
      · split at h
        · simp at h
        · split at h <;> simp at h
    · split at h <;> simp at h
  intro h
  unfold compareFields at h
  split at h
  case h_1 | h_2 => exact hfile h
  case h_8 =>
    split at h
    · simp at h
    · split at h
      · next he =>
        obtain rfl := Except.error.inj h
        exact hardlinkChanged_ne_outOfFuel _ _ _ he
      · simp at h
  all_goals simp at h

theorem compareBoth_ne_outOfFuel (pr : Printer) (fs : PathInfo) (tran : TranLine) :
    compareBoth cfg pr fs tran ≠ .error .outOfFuel := by
  intro h
  unfold compareBoth at h
  split at h
  · exact tPrint_ne_outOfFuel _ _ _ _ _ h
  split at h
  · next he =>
    obtain rfl := Except.error.inj h
    exact compareFields_ne_outOfFuel _ _ _ he
  · simp at h
  · exact tPrint_ne_outOfFuel _ _ _ _ _ h

theorem printed_ne_outOfFuel (pr : Printer) (fs : Option PathInfo) (tran : TranLine)
    (flag : PrFlag) (move : Move) : (match tPrint cfg.print pr fs tran flag with
      | .error e => .error e
      | .ok pr => .ok (pr, move) : Except Exit (Printer × Move)) ≠ .error .outOfFuel := by
  intro h
  split at h
  · next he =>
    obtain rfl := Except.error.inj h
    exact tPrint_ne_outOfFuel _ _ _ _ _ he
  · simp at h

theorem tCompare_ne_outOfFuel (pr : Printer) (fs : Option PathInfo) (eof : Bool)
    (tran : TranLine) : tCompare cfg pr fs eof tran ≠ .error .outOfFuel := by
  intro h
  unfold tCompare at h
  split at h
  · split at h
    · simp at h
    · exact printed_ne_outOfFuel _ _ _ _ _ h
  · next p =>
    simp only at h
    generalize (if eof = true then -1 else
      pathcasecmp p.piName tran.pinfo.piName cfg.caseSensitive) = cmp at h
    split at h
    · exact printed_ne_outOfFuel _ _ _ _ _ h
    · split at h
      · exact printed_ne_outOfFuel _ _ _ _ _ h
      · split at h
        · next he =>
          obtain rfl := Except.error.inj h
          exact compareBoth_ne_outOfFuel _ _ _ he
        · simp at h

/-- At the end of the transcripts the object is all there is. -/
theorem tCompare_atEnd {pr pr' : Printer} {fs : Option PathInfo} {eof : Bool} {tran : TranLine}
    {move : Move} (h : tCompare cfg pr fs eof tran = .ok (pr', move)) (hmove : move ≠ .fs) :
    eof = false := by
  by_contra heof
  rw [show eof = true by simpa using heof, tCompare_eof] at h
  split at h
  · exact hmove (Prod.mk.inj (Except.ok.inj h)).2.symm
  · cases hp : tPrint cfg.print pr fs tran .fsOnly with
    | error e => simp [hp, Except.map] at h
    | ok pr₁ =>
      rw [hp] at h
      exact hmove (Prod.mk.inj (Except.ok.inj h)).2.symm

theorem advance_ne_outOfFuel (cfg : SelectConfig) (c : Cursors) (i : Nat) :
    advance cfg c i ≠ .error .outOfFuel := by
  intro h
  unfold advance at h
  split at h
  · simp at h
  split at h
  · next he =>
    obtain rfl := Except.error.inj h
    exact transcriptParse_ne_outOfFuel _ _ _ he
  · simp at h

/-- The loop of `transcript` ends, and consumes a line where it answers 2. -/
theorem compareLoop_spec (fs : Option PathInfo) (enter : Nat) {fuel : Nat} {r : Run}
    (hc : r.cursors.Sound) (hfuel : r.cursors.unread < fuel) :
    compareLoop cfg fs enter fuel r ≠ .error .outOfFuel ∧
      ∀ r' n, compareLoop cfg fs enter fuel r = .ok (r', n) → r'.cursors.Sound ∧
        r'.cursors.unread ≤ r.cursors.unread ∧ (n = enter ∨ r'.cursors.unread < r.cursors.unread) := by
  induction fuel generalizing r with
  | zero => omega
  | succ fuel ih =>
    rw [compareLoop]
    split
    · next e he =>
      refine ⟨fun h => ?_, fun r' n h => absurd h (by simp)⟩
      obtain rfl := Except.error.inj h
      exact transcriptSelect_terminates _ _ he
    next c i hsel =>
    obtain ⟨hsound, -, t, hget⟩ := transcriptSelect_settled hc hsel
    have hle : c.unread ≤ r.cursors.unread := selectLoop_unread_le hsel
    rw [hget]
    simp only
    split
    · next e he =>
      refine ⟨fun h => ?_, fun r' n h => absurd h (by simp)⟩
      obtain rfl := Except.error.inj h
      exact tCompare_ne_outOfFuel _ _ _ _ he
    · next pr hcmp =>
      refine ⟨by simp, fun r' n h => ?_⟩
      obtain ⟨rfl, rfl⟩ := Prod.mk.inj (Except.ok.inj h)
      exact ⟨hsound, hle, .inl rfl⟩
    · next pr hcmp =>
      have heof := tCompare_atEnd hcmp (by simp)
      split
      · next e he =>
        refine ⟨fun h => ?_, fun r' n h => absurd h (by simp)⟩
        obtain rfl := Except.error.inj h
        exact advance_ne_outOfFuel _ _ _ he
      next c' hadv =>
      have hlt := advance_unread_lt hget heof hadv
      refine ⟨by simp, fun r' n h => ?_⟩
      obtain ⟨rfl, -⟩ := Prod.mk.inj (Except.ok.inj h)
      exact ⟨advance_sound hsound hadv, by simp only; omega, .inr (by simp only; omega)⟩
    · next pr hcmp =>
      have heof := tCompare_atEnd hcmp (by simp)
      split
      · next e he =>
        refine ⟨fun h => ?_, fun r' n h => absurd h (by simp)⟩
        obtain rfl := Except.error.inj h
        exact advance_ne_outOfFuel _ _ _ he
      next c' hadv =>
      have hlt := advance_unread_lt hget heof hadv
      obtain ⟨hne, hok⟩ := ih (r := ⟨c', pr⟩) (advance_sound hsound hadv) (by simp only; omega)
      refine ⟨hne, fun r' n h => ?_⟩
      obtain ⟨hs, hle', hn⟩ := hok r' n h
      simp only at hle' hn
      exact ⟨hs, by omega, .inr (by omega)⟩

/-- A call ends, uses up no more than there is, and consumes a line where it answers
2. -/
theorem transcript_spec {r : Run} (hc : r.cursors.Sound) (e : FsEntry) :
    transcript cfg r (some e) ≠ .error .outOfFuel ∧
      ∀ r' n, transcript cfg r (some e) = .ok (r', n) → r'.cursors.Sound ∧
        r'.cursors.unread ≤ r.cursors.unread ∧ (n = 2 → r'.cursors.unread < r.cursors.unread) := by
  by_cases hskip : skips cfg e = true
  · have hwarn : ∀ w : List CStr, ({ r.cursors with warned := w } : Cursors).Sound := fun _ => hc
    unfold transcript
    simp only [hskip, if_true]
    generalize hw : (if cfg.excludeWarnings = true then
      { r.cursors with warned := r.cursors.warned ++ [e.path] } else r.cursors) = c
    have hcw : c.Sound ∧ c.unread = r.cursors.unread := by
      subst hw
      split
      · exact ⟨hwarn _, rfl⟩
      · exact ⟨hc, rfl⟩
    split
    · next x hx =>
      refine ⟨fun h => ?_, fun r' n h => absurd h (by simp)⟩
      obtain rfl := Except.error.inj h
      exact transcriptSelect_terminates _ _ hx
    · next c' i hsel =>
      refine ⟨by simp, fun r' n h => ?_⟩
      obtain ⟨rfl, rfl⟩ := Prod.mk.inj (Except.ok.inj h)
      have hle : c'.unread ≤ c.unread := selectLoop_unread_le hsel
      exact ⟨(transcriptSelect_settled hcw.1 hsel).1, hcw.2 ▸ hle, by simp⟩
  · unfold transcript
    simp only [hskip]
    generalize describe r.printer.devHead e = d
    obtain ⟨devHead, p⟩ := d
    obtain ⟨hne, hok⟩ := @compareLoop_spec cfg (some p) (if e.st.isDir then 1 else 0)
      (r.cursors.unread + 1)
      ⟨r.cursors, { r.printer with fsMinus := false, devHead := devHead }⟩ hc (Nat.lt_succ_self _)
    refine ⟨hne, fun r' n h => ?_⟩
    obtain ⟨hsound, hle, hn⟩ := hok r' n h
    refine ⟨hsound, hle, fun h2 => hn.resolve_left ?_⟩
    rw [h2]
    split <;> decide

/-- The call for the path of the next line consumes the line, unless the path takes
the exclude check. -/
theorem transcript_selected {c : Cursors} {i : Nat} {t : Transcript} (hc : c.Sound)
    (hset : Settled cfg.toSelectConfig c i) (hget : c.tranHead[i]? = some t)
    (heof : t.tEof = false) {e : FsEntry} (he : e.path = t.tPinfo.piName) (pr : Printer) :
    (skips cfg e = true → ∃ warned,
      transcript cfg ⟨c, pr⟩ (some e) =
        .ok (⟨{ c with warned := warned }, { pr with fsMinus := false }⟩, 0)) ∧
    (skips cfg e = false → ∀ r' n, transcript cfg ⟨c, pr⟩ (some e) = .ok (r', n) →
      r'.cursors.unread < c.unread) := by
  constructor
  · intro hskip
    unfold transcript
    simp only [hskip, if_true]
    by_cases hwarn : cfg.excludeWarnings = true
    · exact ⟨c.warned ++ [e.path], by rw [if_pos hwarn, hset]⟩
    · have hself := hset c.warned
      exact ⟨c.warned, by rw [if_neg hwarn, hself]⟩
  · intro hskip r' n h
    have hself := hset c.warned
    unfold transcript at h
    simp only [hskip, Bool.false_eq_true, if_false] at h
    have hp : (describe pr.devHead e).2.piName = t.tPinfo.piName := by rw [describe_name, he]
    generalize describe pr.devHead e = d at hp h
    obtain ⟨devHead, p⟩ := d
    rw [compareLoop] at h
    simp only at hp h
    rw [hself] at h
    simp only [hget, heof] at h
    -- the line of the path itself
    have hzero : pathcasecmp p.piName t.tPinfo.piName cfg.caseSensitive = 0 := by
      rw [hp]
      have hnul := (hc t (List.mem_of_getElem? hget)).named heof
      have := pathcasecmp_swap cfg.caseSensitive hnul hnul
      omega
    split at h
    · exact absurd h (by simp)
    · next hcmp =>
      obtain ⟨hm, -⟩ | ⟨-, hend | hlt⟩ | ⟨hm, -⟩ := tCompare_cases hcmp
      · simp at hm
      · simp at hend
      · have : pathcasecmp p.piName t.tPinfo.piName cfg.caseSensitive < 0 := hlt
        omega
      · simp at hm
    · split at h
      · exact absurd h (by simp)
      next c' hadv =>
      obtain ⟨rfl, -⟩ := Prod.mk.inj (Except.ok.inj h)
      exact advance_unread_lt hget heof hadv
    · next hcmp =>
      obtain ⟨-, -, hgt⟩ | ⟨hm, -⟩ | ⟨hm, -⟩ := tCompare_cases hcmp
      · have : 0 < pathcasecmp p.piName t.tPinfo.piName cfg.caseSensitive := hgt
        omega
      · simp at hm
      · simp at hm

end

end Radmind
