import Radmind.Fsdiff.Negative

/-!
# The end of a walk

More fuel takes a walk further and changes nothing of what was there.  A pass of the
loop on a negative directory that takes the exclude check comes back to the state it
began in.  Every other pass consumes a line, so a walk without such passes ends.
-/

namespace Radmind

/-- The walk did not run out of fuel. -/
def Walked.Ends (w : Walked) : Prop :=
  w.result ≠ .error .outOfFuel ∧ w.result ≠ .error (.transcript .outOfFuel)

/-- A pass of the loop whose path takes the exclude check. -/
def Visit.Stalls (cfg : DiffConfig) (v : Visit) : Prop :=
  v.negative = true ∧ skips cfg v.entry = true

instance (cfg : DiffConfig) (v : Visit) : Decidable (v.Stalls cfg) :=
  inferInstanceAs (Decidable (_ ∧ _))

/-! ## More fuel -/

/-- `w'` is `w`, or `w` was cut short by its fuel. -/
def Walked.Le (w w' : Walked) : Prop :=
  w = w' ∨ w.result = .error .outOfFuel ∧ w.visits <+: w'.visits

theorem Walked.Le.refl (w : Walked) : w.Le w := .inl rfl

theorem Walked.prefix_andThen (w : Walked) (next : Run → Walked) :
    w.visits <+: (w.andThen next).visits := by
  unfold Walked.andThen
  split
  · exact List.prefix_rfl
  · exact List.prefix_append _ _

theorem Walked.Le.andThen {w w' : Walked} {next next' : Run → Walked} (h : w.Le w')
    (hnext : ∀ r, (next r).Le (next' r)) : (w.andThen next).Le (w'.andThen next') := by
  rcases h with rfl | ⟨hcut, hpre⟩
  · obtain ⟨visits, result⟩ := w
    cases result with
    | error e => exact .refl _
    | ok r =>
      rw [Walked.andThen_ok, Walked.andThen_ok]
      rcases hnext r with heq | ⟨hcut, hpre⟩
      · rw [heq]
        exact .refl _
      · exact .inr ⟨hcut, (List.prefix_append_right_inj _).mpr hpre⟩
  · obtain ⟨visits, result⟩ := w
    obtain rfl : result = .error .outOfFuel := hcut
    exact .inr ⟨rfl, hpre.trans (w'.prefix_andThen next')⟩

section

variable {cfg : WalkConfig} {fs : FileSystem}

theorem negativeLoop_le {walk walk' : FsEntry → Run → Walked} (path : CStr) (pdel : Bool)
    (hwalk : ∀ e r, (walk e r).Le (walk' e r)) {n m : Nat} (hnm : n ≤ m) (r : Run) :
    (negativeLoop cfg fs path pdel walk n r).Le (negativeLoop cfg fs path pdel walk' m r) := by
  induction n generalizing m r with
  | zero => exact .inr ⟨rfl, List.nil_prefix⟩
  | succ n ih =>
    obtain ⟨m, rfl⟩ : ∃ k, m = k + 1 := ⟨m - 1, by omega⟩
    obtain ⟨result, -, heq⟩ | ⟨c, i, t, o, hpass⟩ := negativeLoop_cases cfg fs path pdel r
    · rw [heq, heq]
      exact .refl _
    · rw [hpass.round, hpass.round]
      exact (hwalk _ _).andThen fun r => ih (by omega) r

theorem walkEntries_le {walk walk' : FsEntry → Run → Walked} (path : CStr) (delParent : Bool)
    (hwalk : ∀ e r, (walk e r).Le (walk' e r)) (entries : List FsList) (r : Run) :
    (walkEntries path delParent walk entries r).Le
      (walkEntries path delParent walk' entries r) := by
  induction entries generalizing r with
  | nil => exact .refl _
  | cons cur next ih =>
    rw [walkEntries, walkEntries]
    split
    · exact .refl _
    · exact (hwalk _ _).andThen ih

theorem fsWalk_le {n m : Nat} (hnm : n ≤ m) (negative : Bool) (e : FsEntry) (r : Run) :
    (fsWalk cfg fs n negative e r).Le (fsWalk cfg fs m negative e r) := by
  induction n generalizing m negative e r with
  | zero => exact .inr ⟨rfl, List.nil_prefix⟩
  | succ n ih =>
    obtain ⟨m, rfl⟩ : ∃ k, m = k + 1 := ⟨m - 1, by omega⟩
    have hle : n ≤ m := by omega
    rw [fsWalk, fsWalk]
    split
    · exact .refl _
    · exact (Walked.Le.refl _).andThen fun r => negativeLoop_le _ _ (ih hle true) hle r
    · exact .refl _
    · split
      · exact .refl _
      split
      · exact .refl _
      · exact (Walked.Le.refl _).andThen fun r => walkEntries_le _ _ (ih hle false) _ r
    · exact .refl _

end

/-! ## What a walk consumes -/

/-- The recursive call keeps the cursors sound and gives nothing back. -/
def Consumes (walk : FsEntry → Run → Walked) : Prop :=
  ∀ e r r', r.cursors.Sound → (walk e r).result = .ok r' →
    r'.cursors.Sound ∧ r'.cursors.unread ≤ r.cursors.unread

theorem Walked.andThen_result {w : Walked} {next : Run → Walked} {r' : Run}
    (h : (w.andThen next).result = .ok r') :
    ∃ r, w.result = .ok r ∧ (next r).result = .ok r' := by
  obtain ⟨visits, result⟩ := w
  cases result with
  | error e => simp at h
  | ok r => exact ⟨r, rfl, h⟩

section

variable {cfg : WalkConfig} {fs : FileSystem} {walk : FsEntry → Run → Walked}

theorem negativeLoop_consumes (hwalk : Consumes walk) (path : CStr) (pdel : Bool) (n : Nat)
    {r r' : Run} (hc : r.cursors.Sound)
    (h : (negativeLoop cfg fs path pdel walk n r).result = .ok r') :
    r'.cursors.Sound ∧ r'.cursors.unread ≤ r.cursors.unread := by
  induction n generalizing r with
  | zero => simp [negativeLoop] at h
  | succ n ih =>
    obtain ⟨result, hstop, heq⟩ | ⟨c, i, t, o, hpass⟩ := negativeLoop_cases cfg fs path pdel r
    · rw [heq] at h
      obtain ⟨i, hsel⟩ := hstop.ok r' h
      exact ⟨(transcriptSelect_settled hc hsel).1, selectLoop_unread_le hsel⟩
    rw [hpass.round] at h
    obtain ⟨r₁, h₁, h₂⟩ := Walked.andThen_result h
    have hle : c.unread ≤ r.cursors.unread := selectLoop_unread_le hpass.select
    obtain ⟨hs₁, hle₁⟩ := hwalk _ _ _ (transcriptSelect_settled hc hpass.select).1 h₁
    obtain ⟨hs₂, hle₂⟩ := ih hs₁ h₂
    simp only at hle₁
    exact ⟨hs₂, by omega⟩

theorem walkEntries_consumes (hwalk : Consumes walk) (path : CStr) (delParent : Bool)
    (entries : List FsList) {r r' : Run} (hc : r.cursors.Sound)
    (h : (walkEntries path delParent walk entries r).result = .ok r') :
    r'.cursors.Sound ∧ r'.cursors.unread ≤ r.cursors.unread := by
  induction entries generalizing r with
  | nil =>
    obtain rfl := Except.ok.inj h
    exact ⟨hc, le_rfl⟩
  | cons cur next ih =>
    rw [walkEntries] at h
    split at h
    · simp at h
    obtain ⟨r₁, h₁, h₂⟩ := Walked.andThen_result h
    obtain ⟨hs₁, hle₁⟩ := hwalk _ _ _ hc h₁
    obtain ⟨hs₂, hle₂⟩ := ih hs₁ h₂
    exact ⟨hs₂, by omega⟩

/-- The walk of an object goes through the call for it. -/
theorem fsWalk_consumes_after (fuel : Nat) (negative : Bool) {e : FsEntry} {r r' : Run}
    (hc : r.cursors.Sound) (h : (fsWalk cfg fs fuel negative e r).result = .ok r') :
    r'.cursors.Sound ∧ ∃ r₁ n, transcript cfg.toDiffConfig r (some e) = .ok (r₁, n) ∧
      r'.cursors.unread ≤ r₁.cursors.unread := by
  induction fuel generalizing negative e r r' with
  | zero => simp [fsWalk] at h
  | succ fuel ih =>
    have hwalk : ∀ negative, Consumes (fsWalk cfg fs fuel negative) := by
      intro negative e r r' hc h
      obtain ⟨hs, r₁, n, htran, hle⟩ := ih negative hc h
      have := ((transcript_spec hc e).2 r₁ n htran).2.1
      exact ⟨hs, by omega⟩
    rw [fsWalk] at h
    split at h
    · simp at h
    · next r₁ htran =>
      have hs := ((transcript_spec hc e).2 r₁ _ htran).1
      obtain ⟨r₂, h₁, h₂⟩ := Walked.andThen_result h
      obtain rfl := Except.ok.inj h₁
      obtain ⟨hs', hle⟩ := negativeLoop_consumes (hwalk true) _ _ _ hs h₂
      exact ⟨hs', r₁, 2, htran, hle⟩
    · next r₁ htran =>
      have hs := ((transcript_spec hc e).2 r₁ _ htran).1
      obtain rfl := Except.ok.inj h
      exact ⟨hs, _, 0, htran, le_rfl⟩
    · next r₁ htran =>
      have hs := ((transcript_spec hc e).2 r₁ _ htran).1
      split at h
      · obtain rfl := Except.ok.inj h
        exact ⟨hs, _, 1, htran, le_rfl⟩
      split at h
      · simp at h
      obtain ⟨r₂, h₁, h₂⟩ := Walked.andThen_result h
      obtain rfl := Except.ok.inj h₁
      obtain ⟨hs', hle⟩ := walkEntries_consumes (hwalk false) _ _ _ hs h₂
      exact ⟨hs', r₁, 1, htran, hle⟩
    · simp at h

theorem fsWalk_consumes (fuel : Nat) (negative : Bool) : Consumes (fsWalk cfg fs fuel negative) := by
  intro e r r' hc h
  obtain ⟨hs, r₁, n, htran, hle⟩ := fsWalk_consumes_after fuel negative hc h
  have := ((transcript_spec hc e).2 r₁ n htran).2.1
  exact ⟨hs, by omega⟩

end

/-! ## A pass that stalls -/

section

variable {cfg : WalkConfig} {fs : FileSystem}

theorem fsWalk_skips {fuel : Nat} {negative : Bool} {e : FsEntry} {r r' : Run}
    (h : transcript cfg.toDiffConfig r (some e) = .ok (r', 0)) :
    fsWalk cfg fs (fuel + 1) negative e r = ⟨[⟨e, negative⟩], .ok r'⟩ := by
  simp only [fsWalk, h]

/-- The first call of a walk is the one for its object. -/
theorem fsWalk_visits (fuel : Nat) (negative : Bool) (e : FsEntry) (r : Run) :
    (fsWalk cfg fs fuel negative e r).visits = [] ∧
        (fsWalk cfg fs fuel negative e r).result = .error .outOfFuel ∨
      ∃ vs, (fsWalk cfg fs fuel negative e r).visits = ⟨e, negative⟩ :: vs := by
  cases fuel with
  | zero => exact .inl ⟨rfl, rfl⟩
  | succ fuel =>
    refine .inr ?_
    rw [fsWalk]
    split
    · exact ⟨_, rfl⟩
    · exact ⟨_, rfl⟩
    · exact ⟨_, rfl⟩
    · split
      · exact ⟨_, rfl⟩
      split
      · exact ⟨_, rfl⟩
      · exact ⟨_, rfl⟩
    · exact ⟨_, rfl⟩

/-- Cursors on which the loop goes round with nothing changed but the warnings. -/
theorem Pass.again {path : CStr} {r : Run} {c : Cursors} {i : Nat} {t : Transcript} {o : Object}
    (h : Pass cfg fs path r c i t o) (hc : r.cursors.Sound) (warned : List CStr) (pr : Printer) :
    Pass cfg fs path ⟨{ c with warned := warned }, pr⟩ { c with warned := warned } i t o :=
  ⟨(transcriptSelect_settled hc h.select).2.1 warned, h.get, h.line, h.child, h.found⟩

/-- A pass that takes the exclude check leaves the loop where it is. -/
theorem Pass.outOfFuel {path : CStr} {pdel : Bool} {c : Cursors} {i : Nat} {t : Transcript}
    {o : Object} {warned : List CStr} {pr : Printer} (hc : c.Sound)
    (h : Pass cfg fs path ⟨{ c with warned := warned }, pr⟩ { c with warned := warned } i t o)
    (hskip : skips cfg.toDiffConfig (o.entry t.tPinfo.piName pdel) = true) (fuel n : Nat) :
    (negativeLoop cfg fs path pdel (fsWalk cfg fs fuel true) n
      ⟨{ c with warned := warned }, pr⟩).result = .error .outOfFuel := by
  induction n generalizing warned pr with
  | zero => rfl
  | succ n ih =>
    rw [h.round]
    cases fuel with
    | zero => rfl
    | succ fuel =>
      have hsettled := (@transcriptSelect_settled _ { c with warned := warned } _ _ hc h.select).2.1
      obtain ⟨warned', htran⟩ := (@transcript_selected cfg.toDiffConfig { c with warned := warned }
        i t hc hsettled h.get h.line (o.entry t.tPinfo.piName pdel) rfl pr).1 hskip
      rw [fsWalk_skips htran, Walked.andThen_ok]
      exact ih (h.again hc warned' _)

/-- A loop with a pass that takes the exclude check never ends. -/
theorem negativeLoop_stalls {fuel : Nat} (hwalk : ∀ e r, r.cursors.Sound →
      (∃ v ∈ (fsWalk cfg fs fuel true e r).visits.tail, v.Stalls cfg.toDiffConfig) →
        (fsWalk cfg fs fuel true e r).result = .error .outOfFuel)
    (path : CStr) (pdel : Bool) (n : Nat) {r : Run} (hc : r.cursors.Sound)
    (h : ∃ v ∈ (negativeLoop cfg fs path pdel (fsWalk cfg fs fuel true) n r).visits,
      v.Stalls cfg.toDiffConfig) :
    (negativeLoop cfg fs path pdel (fsWalk cfg fs fuel true) n r).result = .error .outOfFuel := by
  induction n generalizing r with
  | zero => rfl
  | succ n ih =>
    obtain ⟨v, hv, hstalls⟩ := h
    obtain ⟨result, -, heq⟩ | ⟨c, i, t, o, hpass⟩ := negativeLoop_cases cfg fs path pdel r
    · rw [heq] at hv
      exact absurd hv List.not_mem_nil
    have hsound := (transcriptSelect_settled hc hpass.select).1
    by_cases hskip : skips cfg.toDiffConfig (o.entry t.tPinfo.piName pdel) = true
    · -- this pass
      have hself := (hpass.again hc c.warned r.printer).outOfFuel hsound hskip fuel (n + 1)
      rw [(hpass.again hc c.warned r.printer).round] at hself
      rw [hpass.round]
      exact hself
    · rw [hpass.round] at hv ⊢
      have hfirst := hwalk (o.entry t.tPinfo.piName pdel) { r with cursors := c } hsound
      have hvisits := @fsWalk_visits cfg fs fuel true (o.entry t.tPinfo.piName pdel)
        { r with cursors := c }
      have hconsumes := @fsWalk_consumes cfg fs fuel true (o.entry t.tPinfo.piName pdel)
        { r with cursors := c }
      generalize fsWalk cfg fs fuel true (o.entry t.tPinfo.piName pdel)
        { r with cursors := c } = w at hv hfirst hvisits hconsumes ⊢
      obtain ⟨visits, result⟩ := w
      have htail : ∀ v ∈ visits, v.Stalls cfg.toDiffConfig → v ∈ visits.tail := by
        intro v hv hst
        obtain ⟨hnil, -⟩ | ⟨vs, hcons⟩ := hvisits
        · simp only at hnil
          exact absurd (hnil ▸ hv) List.not_mem_nil
        · simp only at hcons
          rw [hcons] at hv ⊢
          rcases List.mem_cons.mp hv with rfl | hv
          · exact absurd hst.2 hskip
          · exact hv
      cases result with
      | error x => exact hfirst ⟨v, htail v hv hstalls, hstalls⟩
      | ok r' =>
        rw [Walked.andThen_ok] at hv ⊢
        rcases List.mem_append.mp hv with hv | hv
        · exact absurd (hfirst ⟨v, htail v hv hstalls, hstalls⟩) (by simp)
        · exact ih (hconsumes _ hsound rfl).1 ⟨v, hv, hstalls⟩

theorem walkEntries_stalls {fuel : Nat} (hwalk : ∀ e r, r.cursors.Sound →
      (∃ v ∈ (fsWalk cfg fs fuel false e r).visits, v.Stalls cfg.toDiffConfig) →
        (fsWalk cfg fs fuel false e r).result = .error .outOfFuel)
    (path : CStr) (delParent : Bool) (entries : List FsList) {r : Run} (hc : r.cursors.Sound)
    (h : ∃ v ∈ (walkEntries path delParent (fsWalk cfg fs fuel false) entries r).visits,
      v.Stalls cfg.toDiffConfig) :
    (walkEntries path delParent (fsWalk cfg fs fuel false) entries r).result =
      .error .outOfFuel := by
  induction entries generalizing r with
  | nil =>
    obtain ⟨v, hv, -⟩ := h
    exact absurd hv List.not_mem_nil
  | cons cur next ih =>
    obtain ⟨v, hv, hstalls⟩ := h
    rw [walkEntries] at hv ⊢
    split at hv
    · exact absurd hv List.not_mem_nil
    next hlong =>
    simp only [hlong, if_false]
    have hfirst := hwalk (cur.flObject.entry (childPath path cur.flName) delParent) r hc
    have hconsumes := @fsWalk_consumes cfg fs fuel false
      (cur.flObject.entry (childPath path cur.flName) delParent) r
    generalize fsWalk cfg fs fuel false (cur.flObject.entry (childPath path cur.flName) delParent)
      r = w at hv hfirst hconsumes ⊢
    obtain ⟨visits, result⟩ := w
    cases result with
    | error x => exact hfirst ⟨v, hv, hstalls⟩
    | ok r' =>
      rw [Walked.andThen_ok] at hv ⊢
      rcases List.mem_append.mp hv with hv | hv
      · exact absurd (hfirst ⟨v, hv, hstalls⟩) (by simp)
      · exact ih (hconsumes _ hc rfl).1 ⟨v, hv, hstalls⟩

/-- A walk on the way to a pass that takes the exclude check never ends. -/
theorem fsWalk_stalls (fuel : Nat) (negative : Bool) (e : FsEntry) {r : Run}
    (hc : r.cursors.Sound)
    (h : ∃ v ∈ (fsWalk cfg fs fuel negative e r).visits.tail, v.Stalls cfg.toDiffConfig) :
    (fsWalk cfg fs fuel negative e r).result = .error .outOfFuel := by
  induction fuel generalizing negative e r with
  | zero => rfl
  | succ fuel ih =>
    -- a call with the flag not set is no pass of a loop
    have hplain : ∀ e r, r.cursors.Sound →
        (∃ v ∈ (fsWalk cfg fs fuel false e r).visits, v.Stalls cfg.toDiffConfig) →
          (fsWalk cfg fs fuel false e r).result = .error .outOfFuel := by
      intro e r hc h
      obtain ⟨v, hv, hstalls⟩ := h
      obtain ⟨-, hcut⟩ | ⟨vs, hcons⟩ := @fsWalk_visits cfg fs fuel false e r
      · exact hcut
      · rw [hcons] at hv
        rcases List.mem_cons.mp hv with rfl | hv
        · exact absurd hstalls.1 (by simp)
        · exact ih false e hc ⟨v, by rwa [hcons], hstalls⟩
    obtain ⟨v, hv, hstalls⟩ := h
    rw [fsWalk] at hv ⊢
    split at hv
    · exact absurd hv List.not_mem_nil
    · next r₁ htran =>
      have hs := ((transcript_spec hc e).2 r₁ _ htran).1
      exact negativeLoop_stalls (fun e r hc h => ih true e hc h) _ _ _ hs ⟨v, hv, hstalls⟩
    · exact absurd hv List.not_mem_nil
    · next r₁ htran =>
      have hs := ((transcript_spec hc e).2 r₁ _ htran).1
      split at hv
      · exact absurd hv List.not_mem_nil
      next hskip =>
      split at hv
      · exact absurd hv List.not_mem_nil
      next entries hread =>
      simp only [hskip]
      exact walkEntries_stalls hplain _ _ _ hs ⟨v, hv, hstalls⟩
    · exact absurd hv List.not_mem_nil

/-! ## A walk without such a pass -/

/-- The walk has ended, or gone into a pass that takes the exclude check. -/
def Resolves (cfg : WalkConfig) (w : Walked) : Prop :=
  w.Ends ∨ ∃ v ∈ w.visits, v.Stalls cfg.toDiffConfig

theorem Resolves.error {visits : List Visit} {x : WalkExit} (hx : x ≠ .outOfFuel)
    (hx' : x ≠ .transcript .outOfFuel) : Resolves cfg ⟨visits, .error x⟩ :=
  .inl ⟨by simpa using hx, by simpa using hx'⟩

theorem Resolves.ok (visits : List Visit) (r : Run) : Resolves cfg ⟨visits, .ok r⟩ :=
  .inl ⟨by simp, by simp⟩

theorem Resolves.le {w w' : Walked} (h : Resolves cfg w) (hle : w.Le w') : Resolves cfg w' := by
  rcases hle with rfl | ⟨hcut, hpre⟩
  · exact h
  · rcases h with hends | ⟨v, hv, hstalls⟩
    · exact absurd hcut hends.1
    · exact .inr ⟨v, hpre.subset hv, hstalls⟩

/-- A walk resolves where it resolves up to a point, and from there on. -/
theorem Resolves.andThen {w : Walked} {next : Run → Walked} (h : Resolves cfg w)
    (hnext : (∀ v ∈ w.visits, ¬ v.Stalls cfg.toDiffConfig) → ∀ r, w.result = .ok r →
      Resolves cfg (next r)) : Resolves cfg (w.andThen next) := by
  by_cases hstalls : ∃ v ∈ w.visits, v.Stalls cfg.toDiffConfig
  · obtain ⟨v, hv, hstalls⟩ := hstalls
    exact .inr ⟨v, (w.prefix_andThen next).subset hv, hstalls⟩
  · have hends := h.resolve_right hstalls
    obtain ⟨visits, result⟩ := w
    cases result with
    | error x => exact .inl hends
    | ok r =>
      rw [Walked.andThen_ok]
      rcases hnext (fun v hv hs => hstalls ⟨v, hv, hs⟩) r rfl with hends' | ⟨v, hv, hs⟩
      · exact .inl hends'
      · exact .inr ⟨v, List.mem_append_right _ hv, hs⟩

theorem negativeLoop_suffices (path : CStr) (pdel : Bool) {u : Nat}
    (hwalk : ∀ e r, r.cursors.Sound → r.cursors.unread ≤ u →
      ∃ n, Resolves cfg (fsWalk cfg fs n true e r)) {r : Run} (hc : r.cursors.Sound)
    (hu : r.cursors.unread ≤ u) :
    ∃ n, Resolves cfg (negativeLoop cfg fs path pdel (fsWalk cfg fs n true) n r) := by
  induction hk : r.cursors.unread using Nat.strong_induction_on generalizing r with
  | _ k ih =>
    obtain ⟨result, hstop, heq⟩ | ⟨c, i, t, o, hpass⟩ := negativeLoop_cases cfg fs path pdel r
    · exact ⟨1, .inl (heq _ 0 ▸ hstop.ended)⟩
    obtain ⟨hsound, hsettled, -⟩ := transcriptSelect_settled hc hpass.select
    have hle : c.unread ≤ r.cursors.unread := selectLoop_unread_le hpass.select
    obtain ⟨n, hn⟩ := hwalk (o.entry t.tPinfo.piName pdel) { r with cursors := c } hsound
      (by simp only; omega)
    -- the fuel for the rest, where this pass has consumed its line
    obtain ⟨m, hm⟩ : ∃ m, (∀ v ∈ (fsWalk cfg fs n true (o.entry t.tPinfo.piName pdel)
        { r with cursors := c }).visits, ¬ v.Stalls cfg.toDiffConfig) →
        ∀ r', (fsWalk cfg fs n true (o.entry t.tPinfo.piName pdel)
          { r with cursors := c }).result = .ok r' →
        Resolves cfg (negativeLoop cfg fs path pdel (fsWalk cfg fs m true) m r') := by
      by_cases hgo : ∃ r', (fsWalk cfg fs n true (o.entry t.tPinfo.piName pdel)
          { r with cursors := c }).result = .ok r' ∧ ∀ v ∈ (fsWalk cfg fs n true
            (o.entry t.tPinfo.piName pdel) { r with cursors := c }).visits,
            ¬ v.Stalls cfg.toDiffConfig
      swap
      · exact ⟨0, fun hst r' hr' => absurd ⟨r', hr', hst⟩ hgo⟩
      obtain ⟨r', hr', hst⟩ := hgo
      obtain ⟨hs', r₁, k₁, htran, hle₁⟩ := fsWalk_consumes_after n true hsound hr'
      have hskip : skips cfg.toDiffConfig (o.entry t.tPinfo.piName pdel) = false := by
        by_contra hskip
        obtain ⟨-, hcut⟩ | ⟨vs, hcons⟩ := @fsWalk_visits cfg fs n true
          (o.entry t.tPinfo.piName pdel) { r with cursors := c }
        · simp [hcut] at hr'
        · exact hst ⟨_, true⟩ (hcons ▸ List.mem_cons_self) ⟨rfl, by simpa using hskip⟩
      have hlt := (transcript_selected hsound hsettled hpass.get hpass.line rfl r.printer).2 hskip
        r₁ k₁ htran
      obtain ⟨m, hm⟩ := ih r'.cursors.unread (by omega) hs' (by omega) rfl
      refine ⟨m, fun _ r'' hr'' => ?_⟩
      obtain rfl := Except.ok.inj (hr'.symm.trans hr'')
      exact hm
    refine ⟨max n m + 1, ?_⟩
    rw [hpass.round]
    have hfirst : Resolves cfg ((fsWalk cfg fs n true (o.entry t.tPinfo.piName pdel)
        { r with cursors := c }).andThen (negativeLoop cfg fs path pdel (fsWalk cfg fs m true) m)) :=
      hn.andThen hm
    exact hfirst.le ((fsWalk_le (by omega) true _ _).andThen fun r =>
      negativeLoop_le path pdel (fsWalk_le (by omega) true) (by omega) r)

theorem walkEntries_suffices {path : CStr} (delParent : Bool) {u : Nat}
    (hwalk : ∀ e r, r.cursors.Sound → r.cursors.unread ≤ u → path.length < e.path.length →
      e.path.length < maxPathLen → ∃ n, Resolves cfg (fsWalk cfg fs n false e r))
    {entries : List FsList} (hnames : ∀ fl ∈ entries, IsName fl.flName) {r : Run}
    (hc : r.cursors.Sound) (hu : r.cursors.unread ≤ u) :
    ∃ n, Resolves cfg (walkEntries path delParent (fsWalk cfg fs n false) entries r) := by
  induction entries generalizing r with
  | nil => exact ⟨0, .ok _ _⟩
  | cons cur next ih =>
    by_cases hlong : maxPathLen ≤ (childPath path cur.flName).length
    · refine ⟨0, ?_⟩
      rw [walkEntries]
      simp only [if_pos hlong]
      exact .error (by simp) (by simp)
    have hlen : path.length < (childPath path cur.flName).length := by
      have hpos := List.length_pos_of_ne_nil (hnames cur List.mem_cons_self).1
      unfold childPath
      split
      · rw [List.length_append]
        omega
      · rw [List.length_append, List.length_cons]
        omega
    obtain ⟨n, hn⟩ := hwalk (cur.flObject.entry (childPath path cur.flName) delParent) r hc hu hlen
      (by simpa [Object.entry] using hlong)
    obtain ⟨m, hm⟩ : ∃ m, ∀ r', (fsWalk cfg fs n false
        (cur.flObject.entry (childPath path cur.flName) delParent) r).result = .ok r' →
        Resolves cfg (walkEntries path delParent (fsWalk cfg fs m false) next r') := by
      by_cases hgo : ∃ r', (fsWalk cfg fs n false
        (cur.flObject.entry (childPath path cur.flName) delParent) r).result = .ok r'
      swap
      · exact ⟨0, fun r' hr' => absurd ⟨r', hr'⟩ hgo⟩
      obtain ⟨r', hr'⟩ := hgo
      obtain ⟨hs', hle⟩ := fsWalk_consumes n false _ _ _ hc hr'
      obtain ⟨m, hm⟩ := ih (fun fl hfl => hnames fl (List.mem_cons_of_mem _ hfl)) hs' (by omega)
      refine ⟨m, fun r'' hr'' => ?_⟩
      obtain rfl := Except.ok.inj (hr'.symm.trans hr'')
      exact hm
    refine ⟨max n m, ?_⟩
    rw [walkEntries]
    simp only [if_neg hlong]
    have hfirst : Resolves cfg ((fsWalk cfg fs n false
        (cur.flObject.entry (childPath path cur.flName) delParent) r).andThen
          (walkEntries path delParent (fsWalk cfg fs m false) next)) :=
      hn.andThen fun _ => hm
    exact hfirst.le ((fsWalk_le (by omega) false _ _).andThen
      (walkEntries_le path delParent (fsWalk_le (by omega) false) next))

theorem readEntries_error {caseSensitive : Bool} {path : CStr} {x : WalkExit}
    (h : readEntries caseSensitive fs path = .error x) :
    x = .unknownType path ∨ x = .systemError path := by
  have hloop : ∀ {cmp : CStr → CStr → Int} {entries : List (CStr × RadStat)} {head : List FsList}
      {last : Option Nat}, readLoop cmp path head last entries = .error x →
      x = .unknownType path ∨ x = .systemError path := by
    intro cmp entries
    induction entries with
    | nil => exact fun h => absurd h (by simp [readLoop])
    | cons de entries ih =>
      intro head last h
      rw [readLoop] at h
      split at h
      · exact ih h
      · split at h
        · next y hy =>
          obtain rfl := Except.error.inj h
          unfold RadStat.found at hy
          split at hy
          · simp at hy
          · exact .inl (Except.error.inj hy).symm
          · simp at hy
          · exact .inr (Except.error.inj hy).symm
        · exact ih h
  unfold readEntries at h
  split at h
  · exact .inr (Except.error.inj h).symm
  · exact hloop h

/-- Some fuel takes every walk to its end, or into a pass that takes the exclude check.
A directory that is read lies deeper than the one before it, and a negative directory
has consumed its own line. -/
theorem fsWalk_suffices (negative : Bool) (e : FsEntry) {r : Run} (hc : r.cursors.Sound) :
    ∃ n, Resolves cfg (fsWalk cfg fs n negative e r) := by
  induction hu : r.cursors.unread using Nat.strong_induction_on generalizing negative e r with
  | _ u ihu =>
  induction hl : maxPathLen - e.path.length using Nat.strong_induction_on generalizing negative e r
    with
  | _ l ihl =>
    obtain ⟨hne, hok⟩ := transcript_spec hc e
    cases htran : transcript cfg.toDiffConfig r (some e) with
    | error x =>
      refine ⟨1, ?_⟩
      simp only [fsWalk, htran]
      exact .error (by simp) fun h => hne (htran.trans (congrArg _ (WalkExit.transcript.inj h)))
    | ok p =>
      obtain ⟨r₁, k⟩ := p
      obtain ⟨hs, hle, hlt⟩ := hok r₁ k htran
      rcases k with _ | _ | _ | k
      · exact ⟨1, by simp only [fsWalk, htran]; exact .ok _ _⟩
      · by_cases hskip : cfg.skip = true
        · exact ⟨1, by simp only [fsWalk, htran, if_pos hskip]; exact .ok _ _⟩
        cases hread : readEntries cfg.caseSensitive fs e.path with
        | error x =>
          refine ⟨1, ?_⟩
          simp only [fsWalk, htran, if_neg hskip, hread]
          rcases readEntries_error hread with rfl | rfl
          · exact .error (by simp) (by simp)
          · exact .error (by simp) (by simp)
        | ok entries =>
          have hwalk : ∀ e' r', r'.cursors.Sound → r'.cursors.unread ≤ r₁.cursors.unread →
              e.path.length < e'.path.length → e'.path.length < maxPathLen →
              ∃ n, Resolves cfg (fsWalk cfg fs n false e' r') := by
            intro e' r' hs' hle' hlong hshort
            by_cases heq : r'.cursors.unread = u
            · exact ihl (maxPathLen - e'.path.length) (by omega) false e' hs' heq rfl
            · exact ihu r'.cursors.unread (by omega) false e' hs' rfl
          obtain ⟨n, hn⟩ := walkEntries_suffices r₁.printer.fsMinus hwalk
            (readEntries_isName hread) hs le_rfl
          refine ⟨n + 1, ?_⟩
          simp only [fsWalk, htran, if_neg hskip, hread]
          refine (Resolves.ok _ _).andThen fun _ r' hr' => ?_
          obtain rfl := Except.ok.inj hr'
          exact hn
      · have hlt := hlt rfl
        obtain ⟨n, hn⟩ := negativeLoop_suffices e.path e.parentMinus
          (fun e' r' hs' hle' => ihu r'.cursors.unread (by omega) true e' hs' rfl) hs le_rfl
        refine ⟨n + 1, ?_⟩
        simp only [fsWalk, htran]
        refine (Resolves.ok _ _).andThen fun _ r' hr' => ?_
        obtain rfl := Except.ok.inj hr'
        exact hn
      · exact ⟨1, by simp only [fsWalk, htran]; exact .error (by simp) (by simp)⟩

end

/-- No pass of a loop on a negative directory takes the exclude check. -/
def LoopsGoOn (cfg : WalkConfig) (fs : FileSystem) (e : FsEntry) (r : Run) : Prop :=
  ∀ fuel, ∀ v ∈ (fsWalk cfg fs fuel false e r).visits, ¬ v.Stalls cfg.toDiffConfig

theorem sound_of_opened {cfg : ParseConfig} {c : Cursors} {ts : List Transcript}
    (hts : c.tranHead = ts ++ [nullTranscript]) (hopen : ∀ t ∈ ts, Opened cfg t) : c.Sound := by
  intro t ht
  rw [hts] at ht
  rcases List.mem_append.mp ht with ht | ht
  · obtain ⟨buf, buf', type, fullname, shortname, content, hnew⟩ := hopen t ht
    refine transcriptParse_sound ⟨fun _ => nulFree_nil, fun h => ?_⟩ hnew
    simp at h
  · obtain rfl := List.mem_singleton.mp ht
    exact ⟨fun h => by simp [nullTranscript] at h, fun _ h => absurd rfl h⟩

section

variable {cfg : WalkConfig} {fs : FileSystem}

theorem fsWalk_ends_iff {e : FsEntry} {r : Run} (hc : r.cursors.Sound) :
    (∃ fuel, (fsWalk cfg fs fuel false e r).Ends) ↔ LoopsGoOn cfg fs e r := by
  constructor
  · intro hends fuel v hv hstalls
    obtain ⟨n, hn⟩ := hends
    have hlong := @fsWalk_le cfg fs _ _ (Nat.le_max_left n fuel) false e r
    have hmore := @fsWalk_le cfg fs _ _ (Nat.le_max_right n fuel) false e r
    have hsame : fsWalk cfg fs n false e r = fsWalk cfg fs (max n fuel) false e r :=
      hlong.resolve_right fun h => hn.1 h.1
    have hmem : v ∈ (fsWalk cfg fs (max n fuel) false e r).visits := by
      rcases hmore with heq | ⟨-, hpre⟩
      · exact heq ▸ hv
      · exact hpre.subset hv
    rw [← hsame] at hmem
    obtain ⟨-, hcut⟩ | ⟨vs, hcons⟩ := @fsWalk_visits cfg fs n false e r
    · exact hn.1 hcut
    · rw [hcons] at hmem
      rcases List.mem_cons.mp hmem with rfl | hmem
      · exact absurd hstalls.1 (by simp)
      · exact hn.1 (fsWalk_stalls n false e hc ⟨v, by rwa [hcons], hstalls⟩)
  · intro hpasses
    obtain ⟨n, hends | ⟨v, hv, hstalls⟩⟩ := @fsWalk_suffices cfg fs false e _ hc
    · exact ⟨n, hends⟩
    · exact absurd hstalls (hpasses n v hv)

/-- A pass consumes a line unless its path takes the exclude check. -/
theorem Pass.consumes_iff {path : CStr} {pdel : Bool} {r r' : Run} {c : Cursors} {i : Nat}
    {t : Transcript} {o : Object} (hc : r.cursors.Sound) (h : Pass cfg fs path r c i t o)
    {fuel : Nat} (hr' : (fsWalk cfg fs fuel true (o.entry t.tPinfo.piName pdel)
      { r with cursors := c }).result = .ok r') :
    r'.cursors.unread < c.unread ↔
      skips cfg.toDiffConfig (o.entry t.tPinfo.piName pdel) = false := by
  obtain ⟨hsound, hsettled, -⟩ := transcriptSelect_settled hc h.select
  obtain ⟨hskipped, hgone⟩ := @transcript_selected cfg.toDiffConfig c i t hsound hsettled h.get
    h.line (o.entry t.tPinfo.piName pdel) rfl r.printer
  constructor
  · intro hlt
    by_contra hskip
    obtain ⟨warned, htran⟩ := hskipped (by simpa using hskip)
    cases fuel with
    | zero => simp [fsWalk] at hr'
    | succ fuel =>
      rw [fsWalk_skips htran] at hr'
      obtain rfl := Except.ok.inj hr'
      exact lt_irrefl _ hlt
  · intro hskip
    obtain ⟨-, r₁, n, htran, hle⟩ := fsWalk_consumes_after fuel true hsound hr'
    exact lt_of_le_of_lt hle (hgone hskip r₁ n htran)

end

/-- The walk ends if and only if no pass of a loop on a negative directory takes the
exclude check, and every pass that does not take it consumes a line. -/
theorem fsWalk_terminates_iff (cfg : WalkConfig) (fs : FileSystem) {c : Cursors}
    {ts : List Transcript} (hts : c.tranHead = ts ++ [nullTranscript])
    (hopen : ∀ t ∈ ts, Opened cfg.toParseConfig t) (pr : Printer) (e : FsEntry) :
    ((∃ fuel, (fsWalk cfg fs fuel false e ⟨c, pr⟩).Ends) ↔ LoopsGoOn cfg fs e ⟨c, pr⟩) ∧
      ∀ path pdel r c i t o, r.cursors.Sound → Pass cfg fs path r c i t o → ∀ fuel r',
        (fsWalk cfg fs fuel true (o.entry t.tPinfo.piName pdel)
          { r with cursors := c }).result = .ok r' →
        (r'.cursors.unread < c.unread ↔
          skips cfg.toDiffConfig (o.entry t.tPinfo.piName pdel) = false) := by
  exact ⟨fsWalk_ends_iff (sound_of_opened hts hopen),
    fun path pdel r c i t o hc h fuel r' hr' => h.consumes_iff hc hr'⟩

theorem fsWalk_terminates_iff_dot :
    ((∃ fuel, (fsWalk dotConfig dotFs fuel false (dirEntry (lit "/"))
        ⟨twoCursors, .start⟩).Ends) ↔
      LoopsGoOn dotConfig dotFs (dirEntry (lit "/")) ⟨twoCursors, .start⟩) ∧
      ∀ path pdel r c i t o, r.cursors.Sound → Pass dotConfig dotFs path r c i t o → ∀ fuel r',
        (fsWalk dotConfig dotFs fuel true (o.entry t.tPinfo.piName pdel)
          { r with cursors := c }).result = .ok r' →
        (r'.cursors.unread < c.unread ↔
          skips dotConfig.toDiffConfig (o.entry t.tPinfo.piName pdel) = false) :=
  fsWalk_terminates_iff dotConfig dotFs rfl twoOpened .start (dirEntry (lit "/"))

/-! ### A special file below a negative directory

The list of special files has the path as the line of the command file spells it. -/

def stuckConfig : WalkConfig :=
  { twoDiff with
    skip := false, pathPrefix := some (lit "/n"), tExclude := fun path => hasPrefix (lit "/n/") path
    isSpecial := fun path => path = lit "/n/a\\bb" }

def stuckOpened (type : TType) (content : String) : Transcript :=
  match tNew stuckConfig.toParseConfig [] type (lit "/T") (lit "T") (lit content) with
  | .ok (t, _) => t
  | .error _ => nullTranscript

def stuckCursors : Cursors :=
  { tranHead := [stuckOpened .special "f /n/a\\bb 0644 0 0 0 0 -\n",
      stuckOpened .negative "d /n 0755 0 0\n"] ++ [nullTranscript]
    buf := [], warned := [] }

/-- An empty directory `/n`. -/
def stuckFs : FileSystem :=
  .ofDirs (fun path => if path = lit "/n" then .object dirObject else .gone []) [(lit "/n", [])]
    (by decide)

theorem stuckOpens : ∀ t ∈ [stuckOpened .special "f /n/a\\bb 0644 0 0 0 0 -\n",
    stuckOpened .negative "d /n 0755 0 0\n"], Opened stuckConfig.toParseConfig t := by
  intro t ht
  rcases List.mem_pair.mp ht with rfl | rfl
  · exact ⟨[], _, .special, lit "/T", lit "T", lit "f /n/a\\bb 0644 0 0 0 0 -\n", rfl⟩
  · exact ⟨[], _, .negative, lit "/T", lit "T", lit "d /n 0755 0 0\n", rfl⟩

set_option maxRecDepth 16000 in
theorem stuck_stalls : ∃ v ∈ (fsWalk stuckConfig stuckFs 3 false (dirEntry (lit "/n"))
    ⟨stuckCursors, .start⟩).visits, v.Stalls stuckConfig.toDiffConfig := by
  decide

theorem fsWalk_never_ends :
    ¬ ∀ (cfg : WalkConfig) (fs : FileSystem) (c : Cursors) (ts : List Transcript) (pr : Printer)
      (e : FsEntry), c.tranHead = ts ++ [nullTranscript] →
      (∀ t ∈ ts, Opened cfg.toParseConfig t) →
      ∃ fuel, (fsWalk cfg fs fuel false e ⟨c, pr⟩).Ends := by
  intro h
  have hends := h stuckConfig stuckFs stuckCursors _ .start (dirEntry (lit "/n")) rfl stuckOpens
  have hsound : stuckCursors.Sound := sound_of_opened rfl stuckOpens
  obtain ⟨v, hv, hstalls⟩ := stuck_stalls
  exact (fsWalk_ends_iff (r := ⟨stuckCursors, .start⟩) hsound).mp hends 3 v hv hstalls

end Radmind
