import Radmind.Code

/-!
# Splitting a line into words

`acav_parse` writes a NUL over the blank that ends each word and returns
pointers into the line.  A word is therefore the memory of the line from its
first byte on, in the state `acav_parse` leaves the line in.
-/

namespace Radmind

/-- The number of backslashes directly before the current position, `prev` being
the bytes of the line before it in reverse. -/
def slashes (prev : List Byte) : Nat := (prev.takeWhile (· = bslash)).length

/-- Whether the byte ends a word: a tab, a newline, or a space that no odd number
of backslashes precedes. -/
def isBlank (prev : List Byte) (c : Byte) : Bool :=
  c = tab ∨ c = newline ∨ (c = space ∧ slashes prev % 2 = 0)

/-- The loop of `acav_parse` in state `inWord`: the line with its blanks
overwritten, and the words that start from here on. -/
def acavLoop (prev : List Byte) (inWord : Bool) : List Byte → List Byte × List (List Byte)
  | [] => ([], [])
  | c :: line =>
    if c = nul then (c :: line, [])
    else if isBlank prev c then
      let r := acavLoop (c :: prev) false line
      ((if inWord then nul else c) :: r.1, r.2)
    else
      let r := acavLoop (c :: prev) true line
      (c :: r.1, if inWord then r.2 else (c :: r.1) :: r.2)

def acavParse (line : List Byte) : List Byte × List (List Byte) := acavLoop [] false line

/-- The words of a line as strings. -/
def words (line : List Byte) : List CStr := (acavParse line).2.map cstr

/-! ## Encoded words

The words the tools write are sequences of escapes and of bytes that are
neither blanks nor backslashes.  Such a word is never split. -/

inductive Encoded : List Byte → Prop
  | nil : Encoded []
  | plain {c : Byte} {w : List Byte} : c ≠ nul → c ≠ bslash → c ≠ space → c ≠ tab →
      c ≠ newline → Encoded w → Encoded (c :: w)
  | escape {e : Byte} {w : List Byte} : isEscape e = true → Encoded w →
      Encoded (bslash :: e :: w)

theorem Encoded.append {w v : List Byte} (hw : Encoded w) (hv : Encoded v) : Encoded (w ++ v) := by
  induction hw with
  | nil => exact hv
  | plain h₁ h₂ h₃ h₄ h₅ _ ih => exact .plain h₁ h₂ h₃ h₄ h₅ ih
  | escape he _ ih => exact .escape he ih

theorem encoded_encode (b : Bool) {s : CStr} (hs : NulFree s) :
    Encoded (s.flatMap (encodeByte b)) := by
  induction s with
  | nil => exact .nil
  | cons c s ih =>
    rw [nulFree_cons] at hs
    rw [List.flatMap_cons]
    refine Encoded.append ?_ (ih hs.2)
    rcases encodeByte_cases b c with ⟨e, he, hesc, -⟩ | ⟨he, hb, hsp, ht, hn⟩
    · exact he ▸ .escape hesc .nil
    · exact he ▸ .plain hs.1 hb hsp ht hn .nil

/-- A word that `encode` leaves alone. -/
theorem encoded_of_flatMap {w : List Byte} (hw : NulFree w)
    (h : w.flatMap (encodeByte false) = w) : Encoded w := h ▸ encoded_encode false hw

theorem Encoded.nulFree {w : List Byte} (hw : Encoded w) : NulFree w := by
  induction hw with
  | nil => exact nulFree_nil
  | plain h _ _ _ _ _ ih => exact nulFree_cons.mpr ⟨h, ih⟩
  | @escape e w he _ ih =>
    refine nulFree_cons.mpr ⟨by decide, nulFree_cons.mpr ⟨?_, ih⟩⟩
    rintro rfl
    exact absurd he (by decide)

theorem Encoded.wellEscaped {w : List Byte} (hw : Encoded w) : wellEscaped w = true := by
  induction hw with
  | nil => rfl
  | plain _ hb _ _ _ _ ih => rw [wellEscaped_cons_plain hb, ih]
  | escape he _ ih => simp [Radmind.wellEscaped, he, ih]

/-- Appending to what was read an escape pair or a byte that is no backslash
keeps the number of trailing backslashes even. -/
theorem slashes_cons_plain {c : Byte} (hc : c ≠ bslash) (prev : List Byte) :
    slashes (c :: prev) = 0 := by
  simp [slashes, hc]

theorem slashes_cons_bslash (prev : List Byte) : slashes (bslash :: prev) = slashes prev + 1 := by
  simp [slashes]

theorem isBlank_plain {c : Byte} (hs : c ≠ space) (ht : c ≠ tab) (hn : c ≠ newline)
    (prev : List Byte) : isBlank prev c = false := by
  simp [isBlank, hs, ht, hn]

/-- What an encoded word leaves behind it: an even number of backslashes. -/
theorem Encoded.slashes_even {w : List Byte} (hw : Encoded w) {prev : List Byte}
    (hp : slashes prev % 2 = 0) : slashes (w.reverse ++ prev) % 2 = 0 := by
  induction hw generalizing prev with
  | nil => simpa using hp
  | @plain c w _ hb _ _ _ _ ih =>
    rw [List.reverse_cons, List.append_assoc]
    exact ih (by rw [List.singleton_append, slashes_cons_plain hb])
  | @escape e w he _ ih =>
    rw [List.reverse_cons, List.reverse_cons, List.append_assoc, List.append_assoc]
    refine ih ?_
    simp only [List.singleton_append]
    by_cases hb : e = bslash
    · rw [hb, slashes_cons_bslash, slashes_cons_bslash]
      omega
    · rw [slashes_cons_plain hb]

/-- Inside a word the loop passes over encoded bytes. -/
theorem acavLoop_encoded {w : List Byte} (hw : Encoded w) {prev : List Byte}
    (hp : slashes prev % 2 = 0) (line : List Byte) :
    acavLoop prev true (w ++ line) =
      (w ++ (acavLoop (w.reverse ++ prev) true line).1,
        (acavLoop (w.reverse ++ prev) true line).2) := by
  induction hw generalizing prev with
  | nil => rfl
  | @plain c w hn hb hs ht hl _ ih =>
    rw [List.cons_append, acavLoop, if_neg hn, isBlank_plain hs ht hl, if_neg (by decide),
      ih (by rw [slashes_cons_plain hb])]
    simp
  | @escape e w he _ ih =>
    have hen : e ≠ nul := by rintro rfl; exact absurd he (by decide)
    have hblank : isBlank (bslash :: prev) e = false := by
      have hodd : slashes (bslash :: prev) % 2 = 1 := by rw [slashes_cons_bslash]; omega
      have ht : e ≠ tab := by rintro rfl; exact absurd he (by decide)
      have hl : e ≠ newline := by rintro rfl; exact absurd he (by decide)
      simp [isBlank, ht, hl, hodd]
    have heven : slashes (e :: bslash :: prev) % 2 = 0 := by
      have := (Encoded.escape he .nil).slashes_even hp
      simpa using this
    rw [List.cons_append, List.cons_append, acavLoop, if_neg (by decide),
      isBlank_plain (by decide) (by decide) (by decide), if_neg (by decide), acavLoop,
      if_neg hen, hblank, if_neg (by decide), ih heven]
    simp

/-- A blank byte of the tools' own formats. -/
def isSep (c : Byte) : Prop := c = space ∨ c = tab ∨ c = newline

theorem isBlank_of_isSep {c : Byte} (hc : isSep c) {prev : List Byte}
    (hp : slashes prev % 2 = 0) : isBlank prev c = true := by
  rcases hc with rfl | rfl | rfl <;> simp [isBlank, hp]

theorem isSep_ne_nul {c : Byte} (hc : isSep c) : c ≠ nul := by
  rcases hc with rfl | rfl | rfl <;> decide

theorem isSep_ne_bslash {c : Byte} (hc : isSep c) : c ≠ bslash := by
  rcases hc with rfl | rfl | rfl <;> decide

/-- Blanks between words are kept and start nothing. -/
theorem acavLoop_blanks {seps : List Byte} (hseps : ∀ c ∈ seps, isSep c) {prev : List Byte}
    (hp : slashes prev % 2 = 0) (line : List Byte) :
    acavLoop prev false (seps ++ line) =
      (seps ++ (acavLoop (seps.reverse ++ prev) false line).1,
        (acavLoop (seps.reverse ++ prev) false line).2) := by
  induction seps generalizing prev with
  | nil => rfl
  | cons c seps ih =>
    have hc := hseps c List.mem_cons_self
    rw [List.cons_append, acavLoop, if_neg (isSep_ne_nul hc), if_pos (isBlank_of_isSep hc hp),
      ih (fun d hd => hseps d (List.mem_cons_of_mem _ hd))
        (by rw [slashes_cons_plain (isSep_ne_bslash hc)])]
    simp

theorem slashes_blanks {seps : List Byte} (hseps : ∀ c ∈ seps, isSep c) {prev : List Byte}
    (hp : slashes prev % 2 = 0) : slashes (seps.reverse ++ prev) % 2 = 0 := by
  induction seps generalizing prev with
  | nil => simpa using hp
  | cons c seps ih =>
    rw [List.reverse_cons, List.append_assoc]
    exact ih (fun d hd => hseps d (List.mem_cons_of_mem _ hd))
      (by rw [List.singleton_append,
        slashes_cons_plain (isSep_ne_bslash (hseps c List.mem_cons_self))])

/-- One encoded word and the blanks after it. -/
theorem acavLoop_word {w : List Byte} (hw : Encoded w) (hne : w ≠ []) {sep : Byte}
    (hsep : isSep sep) {seps : List Byte} (hseps : ∀ c ∈ seps, isSep c) {prev : List Byte}
    (hp : slashes prev % 2 = 0) (line : List Byte) :
    ∃ prev', slashes prev' % 2 = 0 ∧
      acavLoop prev false (w ++ sep :: (seps ++ line)) =
        (w ++ nul :: (seps ++ (acavLoop prev' false line).1),
          (w ++ nul :: (seps ++ (acavLoop prev' false line).1)) ::
            (acavLoop prev' false line).2) := by
  -- the first byte of the word opens it, from then on the loop is inside
  have hopen : acavLoop prev false (w ++ sep :: (seps ++ line)) =
      ((acavLoop prev true (w ++ sep :: (seps ++ line))).1,
        (acavLoop prev true (w ++ sep :: (seps ++ line))).1 ::
          (acavLoop prev true (w ++ sep :: (seps ++ line))).2) := by
    cases hw with
    | nil => exact absurd rfl hne
    | plain hn hb hs ht hl hw =>
      simp [acavLoop, hn, isBlank_plain hs ht hl]
    | escape he hw =>
      simp only [List.cons_append, acavLoop, if_neg (show bslash ≠ nul by decide),
        isBlank_plain (show bslash ≠ space by decide) (show bslash ≠ tab by decide)
          (show bslash ≠ newline by decide)]
      simp
  have hw' := hw.slashes_even hp
  have hsep' : slashes (sep :: (w.reverse ++ prev)) % 2 = 0 := by
    rw [slashes_cons_plain (isSep_ne_bslash hsep)]
  refine ⟨seps.reverse ++ sep :: (w.reverse ++ prev), slashes_blanks hseps hsep', ?_⟩
  rw [hopen, acavLoop_encoded hw hp, acavLoop, if_neg (isSep_ne_nul hsep),
    if_pos (isBlank_of_isSep hsep hw'), acavLoop_blanks hseps hsep']
  simp

/-! ## Words that were read

A word of a line may hold escapes the tools do not write.  Put on another line it is
still one word there, as long as a newline follows it. -/

/-- No byte of the word ends it, after the bytes `prev` of the line. -/
inductive Solid : List Byte → List Byte → Prop
  | nil {prev : List Byte} : Solid prev []
  | cons {prev w : List Byte} {c : Byte} : c ≠ nul → isBlank prev c = false →
      Solid (c :: prev) w → Solid prev (c :: w)

theorem Solid.of_slashes {prev prev' w : List Byte} (h : Solid prev w)
    (hp : slashes prev % 2 = slashes prev' % 2) : Solid prev' w := by
  induction h generalizing prev' with
  | nil => exact .nil
  | @cons prev w c hn hblank _ ih =>
    refine .cons hn ?_ (ih ?_)
    · simpa only [isBlank, hp] using hblank
    · by_cases hc : c = bslash
      · rw [hc, slashes_cons_bslash, slashes_cons_bslash]
        omega
      · rw [slashes_cons_plain hc, slashes_cons_plain hc]

theorem Encoded.solid {w : List Byte} (hw : Encoded w) {prev : List Byte}
    (hp : slashes prev % 2 = 0) : Solid prev w := by
  induction hw generalizing prev with
  | nil => exact .nil
  | plain hn hb hs ht hl _ ih =>
    exact .cons hn (isBlank_plain hs ht hl prev) (ih (by rw [slashes_cons_plain hb]))
  | @escape e w he _ ih =>
    have hen : e ≠ nul := by rintro rfl; exact absurd he (by decide)
    have ht : e ≠ tab := by rintro rfl; exact absurd he (by decide)
    have hl : e ≠ newline := by rintro rfl; exact absurd he (by decide)
    have hodd : slashes (bslash :: prev) % 2 = 1 := by
      rw [slashes_cons_bslash]
      omega
    have heven := (Encoded.escape he .nil).slashes_even hp
    refine .cons (by decide) (isBlank_plain (by decide) (by decide) (by decide) prev) ?_
    exact .cons hen (by simp [isBlank, ht, hl, hodd]) (ih (by simpa using heven))

theorem Solid.nulFree {prev w : List Byte} (h : Solid prev w) : NulFree w := by
  induction h with
  | nil => exact nulFree_nil
  | cons hn _ _ ih => exact nulFree_cons.mpr ⟨hn, ih⟩

theorem Solid.newlineFree {prev w : List Byte} (h : Solid prev w) : newline ∉ w := by
  induction h with
  | nil => exact List.not_mem_nil
  | cons _ hblank _ ih =>
    intro hmem
    rcases List.mem_cons.mp hmem with rfl | hmem
    · simp [isBlank] at hblank
    · exact ih hmem

theorem acavLoop_solid {prev w : List Byte} (hw : Solid prev w) (line : List Byte) :
    acavLoop prev true (w ++ line) =
      (w ++ (acavLoop (w.reverse ++ prev) true line).1,
        (acavLoop (w.reverse ++ prev) true line).2) := by
  induction hw with
  | nil => rfl
  | cons hn hblank _ ih =>
    rw [List.cons_append, acavLoop, if_neg hn, hblank, if_neg (by decide), ih]
    simp

/-- The last word of a line. -/
theorem acavLoop_last {prev w : List Byte} (hw : Solid prev w) (hne : w ≠ []) :
    acavLoop prev false (w ++ [newline, nul]) = (w ++ [nul, nul], [w ++ [nul, nul]]) := by
  cases hw with
  | nil => exact absurd rfl hne
  | cons hn hblank hw =>
    rw [List.cons_append, acavLoop, if_neg hn, hblank, if_neg (by decide), acavLoop_solid hw]
    simp [acavLoop, isBlank, show newline ≠ nul by decide]

/-- The last word of a line without its newline. -/
theorem acavLoop_end {prev w : List Byte} (hw : Solid prev w) (hne : w ≠ []) (rest : List Byte) :
    acavLoop prev false (w ++ nul :: rest) = (w ++ nul :: rest, [w ++ nul :: rest]) := by
  cases hw with
  | nil => exact absurd rfl hne
  | cons hn hblank hw =>
    rw [List.cons_append, acavLoop, if_neg hn, hblank, if_neg (by decide), acavLoop_solid hw]
    simp [acavLoop]

theorem acavLoop_open (prev line : List Byte) : Solid prev (cstr (acavLoop prev true line).1) := by
  induction line generalizing prev with
  | nil => exact .nil
  | cons c line ih =>
    rw [acavLoop]
    split
    · next hc => exact hc ▸ .nil
    · next hc =>
      split
      · exact .nil
      · next hblank =>
        simp only
        rw [cstr_cons hc]
        exact .cons hc (by simpa using hblank) (ih _)

/-- The words of a line are not empty, and no byte of them ends them. -/
theorem acavLoop_words {prev line : List Byte} {inWord : Bool}
    (hp : inWord = false → slashes prev % 2 = 0) :
    ∀ mem ∈ (acavLoop prev inWord line).2, cstr mem ≠ [] ∧ Solid [] (cstr mem) := by
  induction line generalizing prev inWord with
  | nil => simp [acavLoop]
  | cons c line ih =>
    rw [acavLoop]
    split
    · simp
    next hc =>
    split
    · next hblank =>
      refine ih fun _ => ?_
      have hne : c ≠ bslash := by
        rintro rfl
        rw [isBlank_plain (by decide) (by decide) (by decide)] at hblank
        exact absurd hblank (by decide)
      rw [slashes_cons_plain hne]
    · next hblank =>
      intro mem hmem
      cases inWord with
      | true =>
        simp only [if_true] at hmem
        exact ih (by simp) mem hmem
      | false =>
        simp only [Bool.false_eq_true, if_false, List.mem_cons] at hmem
        rcases hmem with rfl | hmem
        · rw [cstr_cons hc]
          have hsolid : Solid prev (c :: cstr (acavLoop (c :: prev) true line).1) :=
            .cons hc (by simpa using hblank) (acavLoop_open _ _)
          exact ⟨by simp, hsolid.of_slashes (by rw [hp rfl]; rfl)⟩
        · exact ih (by simp) mem hmem

/-- The blanks inside a line. -/
def isGap (c : Byte) : Prop := c = space ∨ c = tab

instance (c : Byte) : Decidable (isGap c) := inferInstanceAs (Decidable (_ ∨ _))

theorem isSep_of_isGap {c : Byte} (hc : isGap c) : isSep c := hc.imp_right .inl

theorem isGap_ne_newline {c : Byte} (hc : isGap c) : c ≠ newline := by
  rcases hc with rfl | rfl <;> decide

/-- A line of words, each but the first one with the blanks before it. -/
def lineText (w : List Byte) (ws : List (List Byte × List Byte)) : List Byte :=
  w ++ (ws.flatMap fun x => x.1 ++ x.2) ++ [newline]

/-- Words to put on a line: those with another one behind them are encoded. -/
inductive Row : List Byte → List (List Byte × List Byte) → Prop
  | last {w : List Byte} : Solid [] w → w ≠ [] → Row w []
  | more {w v gap : List Byte} {ws : List (List Byte × List Byte)} :
      Encoded w → w ≠ [] → gap ≠ [] → (∀ c ∈ gap, isGap c) → Row v ws → Row w ((gap, v) :: ws)

/-- The words of a line are read back in the order they stand there. -/
theorem Row.acavLoop {w : List Byte} {ws : List (List Byte × List Byte)} (h : Row w ws)
    {prev : List Byte} (hp : slashes prev % 2 = 0) :
    List.Forall₂ (fun v mem => ∃ rest, mem = v ++ nul :: rest) (w :: ws.map (·.2))
      (acavLoop prev false (lineText w ws ++ [nul])).2 := by
  induction h generalizing prev with
  | @last w hw hne =>
    have hline : lineText w [] ++ [nul] = w ++ [newline, nul] := by simp [lineText]
    rw [hline, acavLoop_last (hw.of_slashes (by rw [hp]; rfl)) hne]
    exact .cons ⟨[nul], rfl⟩ .nil
  | @more w v gap ws hw hne hgap hgaps _ ih =>
    obtain ⟨sep, seps, rfl⟩ := List.exists_cons_of_ne_nil hgap
    have hseps : ∀ c ∈ sep :: seps, isSep c := fun c hc => isSep_of_isGap (hgaps c hc)
    have hline : lineText w ((sep :: seps, v) :: ws) ++ [nul] =
        w ++ sep :: (seps ++ (lineText v ws ++ [nul])) := by simp [lineText]
    obtain ⟨prev', hp', hloop⟩ := acavLoop_word hw hne (hseps sep List.mem_cons_self)
      (fun c hc => hseps c (List.mem_cons_of_mem _ hc)) hp (lineText v ws ++ [nul])
    rw [hline, hloop]
    exact .cons ⟨_, rfl⟩ (ih hp')

/-- A line has no NUL, and its newline is at its end. -/
theorem Row.line {w : List Byte} {ws : List (List Byte × List Byte)} (h : Row w ws) :
    ∃ body, lineText w ws = body ++ [newline] ∧ NulFree body ∧ newline ∉ body := by
  induction h with
  | @last w hw _ => exact ⟨w, by simp [lineText], hw.nulFree, hw.newlineFree⟩
  | @more w v gap ws hw _ _ hgap _ ih =>
    obtain ⟨body, hbody, hnul, hnl⟩ := ih
    have hsolid := hw.solid (show slashes [] % 2 = 0 from rfl)
    refine ⟨w ++ (gap ++ body), ?_, ?_, ?_⟩
    · have hline : lineText w ((gap, v) :: ws) = w ++ (gap ++ lineText v ws) := by
        simp [lineText]
      rw [hline, hbody]
      simp
    · exact nulFree_append.mpr ⟨hsolid.nulFree, nulFree_append.mpr
        ⟨fun hm => isSep_ne_nul (isSep_of_isGap (hgap nul hm)) rfl, hnul⟩⟩
    · intro hm
      rcases List.mem_append.mp hm with hm | hm
      · exact hsolid.newlineFree hm
      · rcases List.mem_append.mp hm with hm | hm
        · exact isGap_ne_newline (hgap newline hm) rfl
        · exact hnl hm

/-! ## Encoded words of a line -/

/-- The bytes behind the NUL of a line are left alone and belong to the last bytes of
every word. -/
theorem acavLoop_append_nul (rest : List Byte) {line : List Byte} (hline : NulFree line)
    (prev : List Byte) (inWord : Bool) : acavLoop prev inWord (line ++ nul :: rest) =
      ((acavLoop prev inWord (line ++ [nul])).1 ++ rest,
        (acavLoop prev inWord (line ++ [nul])).2.map (· ++ rest)) := by
  induction line generalizing prev inWord with
  | nil => simp [acavLoop]
  | cons c line ih =>
    obtain ⟨hc, hline⟩ := nulFree_cons.mp hline
    rw [List.cons_append, List.cons_append, acavLoop, acavLoop, if_neg hc, if_neg hc]
    split
    · simp [ih hline]
    · cases inWord <;> simp [ih hline]

/-- Every word points into the memory of the line. -/
theorem acavLoop_suffix (prev : List Byte) (inWord : Bool) (line : List Byte) :
    ∀ mem ∈ (acavLoop prev inWord line).2, mem <:+ (acavLoop prev inWord line).1 := by
  induction line generalizing prev inWord with
  | nil => simp [acavLoop]
  | cons c line ih =>
    rw [acavLoop]
    split
    · simp
    · split
      · intro mem hmem
        exact (ih _ _ mem hmem).trans (List.suffix_cons _ _)
      · intro mem hmem
        have hrest : mem ∈ (acavLoop (c :: prev) true line).2 → mem <:+ _ := fun h =>
          (ih _ _ mem h).trans (List.suffix_cons c _)
        cases inWord with
        | true => exact hrest hmem
        | false =>
          simp only [Bool.false_eq_true, if_false, List.mem_cons] at hmem
          rcases hmem with rfl | hmem
          · exact List.suffix_refl _
          · exact hrest hmem

theorem acavLoop_length (prev : List Byte) (inWord : Bool) (line : List Byte) :
    (acavLoop prev inWord line).1.length = line.length := by
  induction line generalizing prev inWord with
  | nil => rfl
  | cons c line ih =>
    rw [acavLoop]
    split
    · rfl
    · split <;> simp [ih]

theorem acavLoop_getLast (prev : List Byte) (inWord : Bool) (line : List Byte) :
    (acavLoop prev inWord (line ++ [nul])).1.getLast? = some nul := by
  induction line generalizing prev inWord with
  | nil => simp [acavLoop]
  | cons c line ih =>
    rw [List.cons_append, acavLoop]
    split
    · simp [List.getLast?_cons]
    · split <;> simp [List.getLast?_cons, ih]

/-- A word of a line has bytes, and ends with the line at the latest. -/
theorem acavParse_word {line : List Byte} {mem : List Byte}
    (h : mem ∈ (acavParse (line ++ [nul])).2) : cstr mem ≠ [] ∧ nul ∈ mem := by
  have hne := (acavLoop_words (fun _ => rfl) mem h).1
  refine ⟨hne, ?_⟩
  have hmem : mem ≠ [] := fun he => hne (by rw [he]; rfl)
  obtain ⟨before, hbefore⟩ := acavLoop_suffix [] false (line ++ [nul]) mem h
  have hlast := acavLoop_getLast [] false line
  rw [← hbefore, List.getLast?_append_of_ne_nil _ hmem] at hlast
  exact List.mem_of_getLast? hlast

/-- A word as it stands on a line: the blanks before it, and the encoder used. -/
structure LineItem where
  gap : List Byte
  shellSpaces : Bool
  word : CStr

def LineItem.text (x : LineItem) : List Byte := x.word.flatMap (encodeByte x.shellSpaces)

/-- A line of encoded words with blanks between them. -/
def itemsLine (xs : List LineItem) : List Byte := (xs.flatMap fun x => x.gap ++ x.text) ++ [newline]

/-- The words have bytes, fit the buffers, and have a blank between them. -/
structure ItemsOk (xs : List LineItem) : Prop where
  word : ∀ x ∈ xs, NulFree x.word ∧ x.word ≠ [] ∧
    encodeInternal x.shellSpaces x.word = some x.text
  blanks : ∀ x ∈ xs, ∀ c ∈ x.gap, isGap c
  apart : ∀ x ∈ xs.tail, x.gap ≠ []

theorem flatMap_encodeByte_ne_nil (b : Bool) {s : CStr} (hs : s ≠ []) :
    s.flatMap (encodeByte b) ≠ [] := by
  intro h
  have hunits := units_encode b s
  rw [h] at hunits
  exact hs (List.length_eq_zero_iff.mp hunits.symm)

theorem ItemsOk.row {x : LineItem} {xs : List LineItem} (h : ItemsOk (x :: xs)) :
    Row x.text (xs.map fun y => (y.gap, y.text)) := by
  induction xs generalizing x with
  | nil =>
    obtain ⟨hnul, hne, hx⟩ := h.word x List.mem_cons_self
    exact .last ((encoded_encode _ hnul).solid rfl) (flatMap_encodeByte_ne_nil _ hne)
  | cons y xs ih =>
    obtain ⟨hnul, hne, hx⟩ := h.word x List.mem_cons_self
    refine .more (encoded_encode _ hnul) (flatMap_encodeByte_ne_nil _ hne)
      (h.apart y List.mem_cons_self) (h.blanks y (by simp)) (ih ?_)
    exact ⟨fun z hz => h.word z (List.mem_cons_of_mem _ hz),
      fun z hz => h.blanks z (List.mem_cons_of_mem _ hz),
      fun z hz => h.apart z (List.mem_cons_of_mem _ hz)⟩

/-- The words of a line of encoded words are the encodings, and decode to the words,
whatever is in memory behind the line. -/
theorem acavParse_items {xs : List LineItem} (h : ItemsOk xs) (rest : List Byte) :
    List.Forall₂ (fun x mem => cstr mem = x.text ∧ ∀ buf, (decode buf mem).1 = some x.word) xs
      (acavParse (itemsLine xs ++ nul :: rest)).2 := by
  cases xs with
  | nil => simp [acavParse, itemsLine, acavLoop, isBlank, newline, tab, nul]
  | cons x xs =>
    have hrow := h.row
    have hgap : ∀ c ∈ x.gap, isSep c := fun c hc => isSep_of_isGap (h.blanks x List.mem_cons_self c hc)
    have hline : itemsLine (x :: xs) = x.gap ++ lineText x.text (xs.map fun y => (y.gap, y.text)) := by
      simp [itemsLine, lineText, List.flatMap_map]
    obtain ⟨body, hbody, hnul, -⟩ := hrow.line
    have hfree : NulFree (itemsLine (x :: xs)) := by
      rw [hline, hbody]
      refine nulFree_append.mpr ⟨fun hm => ?_, nulFree_append.mpr ⟨hnul, by decide⟩⟩
      exact isSep_ne_nul (hgap _ hm) rfl
    have hwords := hrow.acavLoop (slashes_blanks hgap (show slashes [] % 2 = 0 from rfl))
    rw [acavParse, acavLoop_append_nul rest hfree, hline, List.append_assoc,
      acavLoop_blanks hgap rfl, List.forall₂_map_right_iff]
    have hitems : List.Forall₂ (fun y mem => ∃ rest, mem = LineItem.text y ++ nul :: rest) (x :: xs)
        (acavLoop (x.gap.reverse ++ []) false
          (lineText x.text (xs.map fun y => (y.gap, y.text)) ++ [nul])).2 := by
      rw [← List.forall₂_map_left_iff (f := LineItem.text)
        (R := fun v mem => ∃ rest, mem = v ++ nul :: rest)]
      simpa [Function.comp_def] using hwords
    refine ((List.forall₂_and_left (p := (· ∈ x :: xs)) _ _).mpr ⟨fun y hy => hy, hitems⟩).imp ?_
    intro y mem ⟨hy, tl, hmem⟩
    obtain ⟨hynul, -, henc⟩ := h.word y hy
    subst hmem
    rw [List.append_assoc, List.cons_append]
    exact ⟨cstr_append_nul (encode_nulFree hynul) _, fun buf => decode_encodeInternal hynul henc buf _⟩

set_option maxRecDepth 8000 in
theorem acavParse_items_two :
    List.Forall₂ (fun x mem => cstr mem = LineItem.text x ∧
        ∀ buf, (decode buf mem).1 = some x.word)
      [⟨[], false, lit "a b\\"⟩, ⟨[space, tab], true, lit " \\"⟩]
      (acavParse (itemsLine [⟨[], false, lit "a b\\"⟩, ⟨[space, tab], true, lit " \\"⟩] ++
        nul :: lit "f")).2 :=
  acavParse_items ⟨by decide, by decide, by decide⟩ (lit "f")

end Radmind
