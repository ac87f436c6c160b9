/-
  FiniteAutomata.Proofs.JsonText
  ──────────────────────────────
  **INDENTED JSON TEXT READS BACK AS THE VALUE IT WAS WRITTEN FROM.**

  Scanner and parser both go through the text once, so what stands ahead does not
  matter to what was read, but for one thing: a word ends only where a character
  follows that cannot be part of it.  `feed` says where a text leads the parser
  from a given state, and each piece that the printer writes leads it one step on:

      feed_word, feed_stringText   a scalar in its place
      Plain.readsBack              a whole value, at any depth, whatever follows
      parse_pretty                 the text of a value

  Numbers with a point are left out, and so are integers with more digits than the
  scanner reads.
-/
import FiniteAutomata.Json.Parser
import FiniteAutomata.Json.Printer
import Mathlib.Algebra.Group.Nat.Defs
import Mathlib.Data.List.TakeWhile

namespace FiniteAutomata.Json

/-! ## §1. Words. -/

/-- Where a text leads the parser. -/
def feed (s : State) (text : List Char) : Except ParseError State :=
  (scan .between text).foldlM State.next s

/-- A text that goes on with a word. -/
def GoesOn (text : List Char) : Prop := ∃ c rest, text = c :: rest ∧ isWordChar c = true

theorem not_goesOn_cons {c : Char} {rest : List Char} (hc : isWordChar c = false) :
    ¬ GoesOn (c :: rest) := by
  intro h
  obtain ⟨d, rest', heq, hd⟩ := h
  injection heq with heq
  subst heq
  rw [hc] at hd
  cases hd

theorem start_word {c : Char} (hc : isWordChar c = true) : start c = ([], .word [c]) := by
  have hne : ∀ d, isWordChar d = false → c ≠ d := by
    intro d hd e
    rw [e, hd] at hc
    cases hc
  have hspace : isSpace c = false := by
    unfold isSpace
    simp [hne ' ' (by decide), hne '\t' (by decide), hne '\n' (by decide), hne '\r' (by decide)]
  have hpunctuation : punctuation? c = none := by
    unfold punctuation?
    split <;> first | rfl | exact absurd hc (by decide)
  unfold start
  rw [hspace, hpunctuation, hc]
  simp [hne '\x22' (by decide)]

theorem scan_word {read w rest : List Char} (hw : ∀ c ∈ w, isWordChar c = true)
    (hrest : ¬ GoesOn rest) :
    scan (.word read) (w ++ rest)
      = wordToken (read.reverse ++ w) :: scan .between rest := by
  induction w generalizing read with
  | nil =>
      cases rest with
      | nil => simp [scan, finish]
      | cons c rest =>
          have hc : isWordChar c = false := by
            rw [← Bool.not_eq_true]
            exact fun hc => hrest ⟨c, rest, rfl, hc⟩
          show (step (.word read) c).1 ++ scan (step (.word read) c).2 rest = _
          simp [step, hc, scan]
  | cons c w ih =>
      have hc := hw c List.mem_cons_self
      show (step (.word read) c).1 ++ scan (step (.word read) c).2 (w ++ rest) = _
      rw [step, if_pos hc]
      rw [List.nil_append, ih fun d hd => hw d (List.mem_cons_of_mem c hd)]
      simp

/-- A word is one token. -/
theorem feed_word (s : State) {w rest : List Char} (hsome : w ≠ [])
    (hw : ∀ c ∈ w, isWordChar c = true) (hrest : ¬ GoesOn rest) :
    feed s (w ++ rest) = s.next (wordToken w) >>= fun s' => feed s' rest := by
  cases w with
  | nil => exact absurd rfl hsome
  | cons c w =>
      have hc := hw c List.mem_cons_self
      have hscan : scan .between (c :: w ++ rest) = wordToken (c :: w) :: scan .between rest := by
        show (start c).1 ++ scan (start c).2 (w ++ rest) = _
        rw [start_word hc]
        exact scan_word (fun d hd => hw d (List.mem_cons_of_mem c hd)) hrest
      unfold feed
      rw [hscan, List.foldlM_cons]

/-! ## §2. Integers. -/

theorem isDigit_of_mem_toDigits {n : Nat} {c : Char} (hc : c ∈ Nat.toDigits 10 n) :
    c.isDigit = true :=
  Nat.isDigit_of_mem_toDigits (by decide) (by decide) hc

/-- Only zero is written with a zero in front. -/
theorem head?_toDigits_ne_zero {n : Nat} (hn : 0 < n) :
    (Nat.toDigits 10 n).head? ≠ some '0' := by
  induction n using Nat.base_induction 10 (by decide) with
  | single m hm =>
      rw [Nat.toDigits_of_lt_base hm]
      intro h
      injection h with h
      exact absurd (Nat.digitChar_eq_zero.1 h) (Nat.ne_of_gt hn)
  | digit m k hk hm ih =>
      rw [← Nat.toDigits_append_toDigits (by decide) hm hk]
      cases hds : Nat.toDigits 10 m with
      | nil => exact absurd hds Nat.toDigits_ne_nil
      | cons c ds =>
          rw [hds] at ih
          exact ih hm

theorem readUnsigned?_toDigits (negative : Bool) (n : Nat) :
    readUnsigned? negative (Nat.toDigits 10 n)
      = some (.int (if negative then -(n : Int) else n)) := by
  have hwhole : (Nat.toDigits 10 n).takeWhile Char.isDigit = Nat.toDigits 10 n :=
    List.takeWhile_eq_self_iff.2 fun _ => isDigit_of_mem_toDigits
  have hrest : (Nat.toDigits 10 n).dropWhile Char.isDigit = [] :=
    List.dropWhile_eq_nil_iff.2 fun _ => isDigit_of_mem_toDigits
  have hvalue : digitsValue (Nat.toDigits 10 n) = n := Nat.ofDigitChars_ten_toDigits
  have hzero : (Nat.toDigits 10 n).head? = some '0' → (Nat.toDigits 10 n).length = 1 := by
    intro h
    cases Nat.eq_zero_or_pos n with
    | inl hn => rw [hn, Nat.toDigits_zero, List.length_singleton]
    | inr hn => exact absurd h (head?_toDigits_ne_zero hn)
  unfold readUnsigned?
  rw [hwhole, hrest]
  dsimp only
  rw [hvalue, if_neg]
  simpa [Nat.toDigits_ne_nil] using hzero

/-- An integer is written with digits and perhaps a minus. -/
theorem mem_intText {n : Int} {c : Char} (hc : c ∈ intText n) : c.isDigit = true ∨ c = '-' := by
  cases n with
  | ofNat n => exact Or.inl (isDigit_of_mem_toDigits hc)
  | negSucc n =>
      obtain hc | hc := List.mem_cons.1 hc
      · exact Or.inr hc
      · exact Or.inl (isDigit_of_mem_toDigits hc)

theorem isWordChar_of_mem_intText {n : Int} {c : Char} (hc : c ∈ intText n) :
    isWordChar c = true := by
  obtain hc | rfl := mem_intText hc
  · simp [isWordChar, Char.isAlphanum, hc]
  · decide

theorem intText_ne_nil (n : Int) : intText n ≠ [] := by
  cases n with
  | ofNat n => exact Nat.toDigits_ne_nil
  | negSucc n => exact List.cons_ne_nil _ _

theorem exists_toDigits_eq_cons (n : Nat) :
    ∃ c ds, Nat.toDigits 10 n = c :: ds ∧ c ≠ '-' := by
  cases hds : Nat.toDigits 10 n with
  | nil => exact absurd hds Nat.toDigits_ne_nil
  | cons c ds =>
      refine ⟨c, ds, rfl, fun e => ?_⟩
      have hc : c.isDigit = true := isDigit_of_mem_toDigits (hds ▸ List.mem_cons_self)
      rw [e] at hc
      exact absurd hc (by decide)

theorem readWord?_intText (n : Int) : readWord? (intText n) = some (.int n) := by
  -- The words for other scalars have letters.
  have hletter : ∀ {word : List Char}, (word.any fun c => !c.isDigit && c ≠ '-') = true →
      intText n ≠ word := by
    intro word hword e
    obtain ⟨c, hc, hother⟩ := List.any_eq_true.1 hword
    rw [Bool.and_eq_true, Bool.not_eq_true', decide_eq_true_iff] at hother
    obtain hdigit | hminus := mem_intText (e ▸ hc)
    · exact absurd hdigit (Bool.not_eq_true _ ▸ hother.1)
    · exact hother.2 hminus
  unfold readWord?
  rw [if_neg (hletter (by decide)), if_neg (hletter (by decide)), if_neg (hletter (by decide)),
    if_neg (hletter (by decide)), if_neg (hletter (by decide)), if_neg (hletter (by decide))]
  cases n with
  | ofNat n =>
      obtain ⟨c, ds, hds, hc⟩ := exists_toDigits_eq_cons n
      have hread := readUnsigned?_toDigits false n
      have htext : intText (.ofNat n) = Nat.toDigits 10 n := rfl
      rw [hds] at hread htext
      rw [htext]
      split
      · next heq =>
        injection heq with heq
        exact absurd heq hc
      · exact hread
  | negSucc n => exact readUnsigned?_toDigits true (n + 1)

theorem excessDigits?_intText {n : Int} (hn : n.natAbs < 10 ^ Text.digitLimit) :
    excessDigits? (intText n) = none := by
  -- Behind the minus stand the digits of the amount.
  have hcs : (if (intText n).head? = some '-' then (intText n).tail else intText n)
      = Nat.toDigits 10 n.natAbs := by
    cases n with
    | ofNat n =>
        obtain ⟨c, ds, hds, hc⟩ := exists_toDigits_eq_cons n
        show (if (Nat.toDigits 10 n).head? = some '-' then _ else Nat.toDigits 10 n) = _
        rw [if_neg]
        · rfl
        · rw [hds]
          exact fun e => hc (Option.some.inj e)
    | negSucc n => rfl
  have hwhole : (Nat.toDigits 10 n.natAbs).takeWhile Char.isDigit = Nat.toDigits 10 n.natAbs :=
    List.takeWhile_eq_self_iff.2 fun _ => isDigit_of_mem_toDigits
  have hlength : (Nat.toDigits 10 n.natAbs).length ≤ Text.digitLimit :=
    (Nat.length_toDigits_le_iff (by decide) (by decide)).2 hn
  unfold excessDigits?
  rw [hcs]
  dsimp only
  rw [hwhole, if_neg]
  simp [Nat.not_lt.2 hlength]

/-- An integer is read back from its digits, if they are not too many. -/
theorem wordToken_intText {n : Int} (hn : n.natAbs < 10 ^ Text.digitLimit) :
    wordToken (intText n) = .scalar (.int n) := by
  unfold wordToken
  rw [excessDigits?_intText hn, readWord?_intText]

/-! ## §3. Strings. -/

theorem charOfUnit_toNat (c : Char) : charOfUnit c.toNat = c := by
  have hvalid : c.toNat.isValidChar := c.valid
  unfold charOfUnit
  rw [if_pos hvalid]
  exact Char.ofNat_toNat c

/-- No character is a surrogate, so no two of them are taken for a pair. -/
theorem charsOfUnits_toNat (cs : List Char) : charsOfUnits (cs.map Char.toNat) = cs := by
  induction cs with
  | nil => rfl
  | cons c cs ih =>
      cases cs with
      | nil => exact congrArg ([·]) (charOfUnit_toNat c)
      | cons d cs =>
          have hpair : ¬ (0xd800 ≤ c.toNat ∧ c.toNat < 0xdc00) := by
            have hvalid : c.toNat.isValidChar := c.valid
            unfold Nat.isValidChar at hvalid
            omega
          show charsOfUnits (c.toNat :: d.toNat :: cs.map Char.toNat) = _
          rw [charsOfUnits, if_neg, charOfUnit_toNat]
          · exact congrArg (c :: ·) ih
          · simp only [Bool.and_eq_true, decide_eq_true_eq]
            exact fun h => hpair h.1.1

theorem hexValue?_digitChar : ∀ d < 16, hexValue? (Nat.digitChar d) = some d := by
  decide

/-- A code unit is read back from its four digits. -/
theorem scan_unitEscape {n : Nat} (hn : n < 0x10000) (units : List Nat) (rest : List Char) :
    scan (.text units) (unitEscape n ++ rest) = scan (.text (n :: units)) rest := by
  have hdigit : ∀ d, hexValue? (Nat.digitChar (d % 16)) = some (d % 16) :=
    fun d => hexValue?_digitChar (d % 16) (Nat.mod_lt d (by decide))
  have hvalue : 16 * (16 * (16 * (16 * 0 + n / 16 / 16 / 16 % 16) + n / 16 / 16 % 16)
      + n / 16 % 16) + n % 16 = n := by
    omega
  show scan (.hex units 3 0) (Text.hexDigits 4 n ++ rest) = _
  simp only [Text.hexDigits, List.nil_append, List.cons_append, scan, step, hdigit, hvalue]

theorem scan_escapeChar (c : Char) (units : List Nat) (rest : List Char) :
    scan (.text units) (escapeChar c ++ rest) = scan (.text (c.toNat :: units)) rest := by
  unfold escapeChar
  split
  case h_8 hquote hbackslash _ _ _ _ _ =>
    by_cases hcontrol : c.toNat < 0x20
    · rw [if_pos hcontrol]
      exact scan_unitEscape (by omega) units rest
    · rw [if_neg hcontrol]
      show (step (.text units) c).1 ++ scan (step (.text units) c).2 rest = _
      rw [step, if_neg hquote, if_neg hbackslash, if_neg hcontrol]
      rfl
  all_goals rfl

theorem scan_escapes (cs : List Char) (units : List Nat) (rest : List Char) :
    scan (.text units) (cs.flatMap escapeChar ++ rest)
      = scan (.text ((cs.map Char.toNat).reverse ++ units)) rest := by
  induction cs generalizing units with
  | nil => rfl
  | cons c cs ih =>
      rw [List.flatMap_cons, List.append_assoc, scan_escapeChar, ih]
      simp

/-- A string is one token. -/
theorem feed_stringText (s : State) (text : String) (rest : List Char) :
    feed s (stringText text ++ rest) = s.next (.str text) >>= fun s' => feed s' rest := by
  have hscan : scan .between (stringText text ++ rest) = .str text :: scan .between rest := by
    show scan (.text []) (text.toList.flatMap escapeChar ++ ['\x22'] ++ rest) = _
    rw [List.append_assoc, scan_escapes, List.append_nil]
    show [Token.str (String.ofList (charsOfUnits (text.toList.map Char.toNat).reverse.reverse))]
      ++ scan .between rest = _
    rw [List.reverse_reverse, charsOfUnits_toNat, String.ofList_toList]
    rfl
  unfold feed
  rw [hscan, List.foldlM_cons]

/-! ## §4. What stands between values. -/

theorem feed_space (s : State) {c : Char} (hc : isSpace c = true) (rest : List Char) :
    feed s (c :: rest) = feed s rest := by
  unfold feed
  rw [scan, step, start, if_pos hc]
  rfl

theorem feed_newLine (s : State) (depth : Nat) (rest : List Char) :
    feed s (newLine depth ++ rest) = feed s rest := by
  have hspaces : ∀ n, feed s (List.replicate n ' ' ++ rest) = feed s rest := by
    intro n
    induction n with
    | zero => rfl
    | succ n ih =>
        rw [List.replicate_succ, List.cons_append, feed_space s (by decide), ih]
  show feed s ('\n' :: (List.replicate (2 * depth) ' ' ++ rest)) = _
  rw [feed_space s (by decide), hspaces]

theorem feed_punctuation (s : State) {c : Char} {t : Token} (hspace : isSpace c = false)
    (hquote : c ≠ '\x22') (hc : punctuation? c = some t) (rest : List Char) :
    feed s (c :: rest) = s.next t >>= fun s' => feed s' rest := by
  unfold feed
  rw [scan, step, start, hspace, if_neg Bool.false_ne_true, if_neg hquote, hc]
  rfl

/-! ## §5. Values. -/

/-- Values whose text reads back: no numbers with a point, no integers with too many
digits, and no member twice. -/
inductive Plain : Json → Prop where
  | null : Plain .null
  | bool (b : Bool) : Plain (.bool b)
  | int {n : Int} : n.natAbs < 10 ^ Text.digitLimit → Plain (.int n)
  | str (text : String) : Plain (.str text)
  | arr {vs : List Json} : (∀ v ∈ vs, Plain v) → Plain (.arr vs)
  | obj {ms : List (String × Json)} : (ms.map Prod.fst).Nodup → (∀ m ∈ ms, Plain m.2) →
      Plain (.obj ms)

/-- A value may begin, and the open containers will be `fs`. -/
def State.Awaits (s : State) (fs : List Frame) : Prop :=
  ∀ t, t ≠ .closeArray → s.next t = State.begin fs t

theorem State.awaits_value (fs : List Frame) : (State.value fs).Awaits fs := fun _ _ => rfl

theorem State.awaits_item (fs : List Frame) :
    (State.itemOrClose fs).Awaits (.items [] :: fs) := by
  intro t ht
  cases t <;> first | rfl | exact absurd rfl ht

/-- Wherever a value may begin, its text makes it complete. -/
def ReadsBack (v : Json) : Prop :=
  ∀ {s : State} {fs : List Frame}, s.Awaits fs → ∀ (depth : Nat) {rest : List Char},
    ¬ GoesOn rest → feed s (indented depth v ++ rest) = feed (.complete v fs) rest

theorem not_goesOn_newLine (depth : Nat) (rest : List Char) :
    ¬ GoesOn (newLine depth ++ rest) := not_goesOn_cons (by decide)

theorem readsBack_word {v : Json} {w : List Char} (hv : ∀ depth, indented depth v = w)
    (hsome : w ≠ []) (hw : ∀ c ∈ w, isWordChar c = true) (htoken : wordToken w = .scalar v) :
    ReadsBack v := by
  intro s fs hs depth rest hrest
  rw [hv, feed_word s hsome hw hrest, htoken, hs (.scalar v) nofun]
  rfl

theorem readsBack_str (text : String) : ReadsBack (.str text) := by
  intro s fs hs depth rest _
  rw [indented, feed_stringText, hs (.str text) nofun]
  rfl

theorem not_goesOn_furtherItems (depth : Nat) (vs : List Json) {rest : List Char}
    (hrest : ¬ GoesOn rest) : ¬ GoesOn (furtherItems depth vs ++ rest) := by
  cases vs with
  | nil => exact hrest
  | cons v vs =>
      rw [furtherItems]
      exact not_goesOn_cons (by decide)

theorem not_goesOn_furtherMembers (depth : Nat) (ms : List (String × Json)) {rest : List Char}
    (hrest : ¬ GoesOn rest) : ¬ GoesOn (furtherMembers depth ms ++ rest) := by
  cases ms with
  | nil => exact hrest
  | cons m ms =>
      rw [furtherMembers]
      exact not_goesOn_cons (by decide)

/-- The items behind a complete one and the end of their array. -/
theorem feed_furtherItems {vs : List Json} (h : ∀ v ∈ vs, ReadsBack v) (v : Json)
    (done : List Json) (fs : List Frame) (depth depth' : Nat) (rest : List Char) :
    feed (.complete v (.items done :: fs))
        (furtherItems depth vs ++ (newLine depth' ++ ']' :: rest))
      = feed (.complete (.arr (done.reverse ++ v :: vs)) fs) rest := by
  induction vs generalizing v done with
  | nil =>
      show feed _ (newLine depth' ++ ']' :: rest) = _
      rw [feed_newLine, feed_punctuation _ (by decide) (by decide) rfl]
      show feed (.complete (.arr (v :: done).reverse) fs) rest = _
      rw [List.reverse_cons]
  | cons w vs ih =>
      have hgoes := not_goesOn_furtherItems depth vs (not_goesOn_newLine depth' (']' :: rest))
      rw [furtherItems]
      simp only [List.cons_append, List.append_assoc]
      rw [feed_punctuation _ (by decide) (by decide) rfl]
      show feed (.value (.items (v :: done) :: fs)) _ = _
      rw [feed_newLine, h w List.mem_cons_self (State.awaits_value _) depth hgoes,
        ih fun u hu => h u (List.mem_cons_of_mem w hu)]
      simp

/-- A member up to its value. -/
theorem feed_member {s : State} {k : String} {done : List (String × Json)} {fs : List Frame}
    (hs : s.next (.str k) = .ok (.colon done k fs)) {v : Json} (hv : ReadsBack v) (depth : Nat)
    {rest : List Char} (hrest : ¬ GoesOn rest) :
    feed s (stringText k ++ ':' :: ' ' :: (indented depth v ++ rest))
      = feed (.complete v (.member done k :: fs)) rest := by
  rw [feed_stringText, hs]
  show feed (.colon done k fs) _ = _
  rw [feed_punctuation _ (by decide) (by decide) rfl]
  show feed (.value (.member done k :: fs)) _ = _
  rw [feed_space _ (by decide), hv (State.awaits_value _) depth hrest]

theorem setMember_of_not_mem {k : String} {ms : List (String × Json)} (v : Json)
    (hk : k ∉ ms.map Prod.fst) : setMember k v ms = ms ++ [(k, v)] := by
  induction ms with
  | nil => rfl
  | cons m ms ih =>
      rw [List.map_cons, List.mem_cons, not_or] at hk
      rw [setMember, if_neg fun e => hk.1 e.symm, ih hk.2]
      rfl

/-- A member of a further name comes behind the others. -/
theorem setMember_of_nodup {k : String} {v : Json} {done ms : List (String × Json)}
    (hnodup : ((done ++ (k, v) :: ms).map Prod.fst).Nodup) :
    setMember k v done = done ++ [(k, v)] := by
  refine setMember_of_not_mem v fun hk => ?_
  rw [List.map_append, List.nodup_append] at hnodup
  exact hnodup.2.2 k hk k List.mem_cons_self rfl

/-- The members behind a complete one and the end of their object. -/
theorem feed_furtherMembers {ms : List (String × Json)} (h : ∀ m ∈ ms, ReadsBack m.2)
    {k : String} {v : Json} {done : List (String × Json)}
    (hnodup : ((done ++ (k, v) :: ms).map Prod.fst).Nodup) (fs : List Frame)
    (depth depth' : Nat) (rest : List Char) :
    feed (.complete v (.member done k :: fs))
        (furtherMembers depth ms ++ (newLine depth' ++ '\x7d' :: rest))
      = feed (.complete (.obj (done ++ (k, v) :: ms)) fs) rest := by
  induction ms generalizing k v done with
  | nil =>
      show feed _ (newLine depth' ++ '\x7d' :: rest) = _
      rw [feed_newLine, feed_punctuation _ (by decide) (by decide) rfl]
      show feed (.complete (.obj (setMember k v done)) fs) rest = _
      rw [setMember_of_nodup hnodup]
  | cons m ms ih =>
      obtain ⟨j, w⟩ := m
      have hgoes :=
        not_goesOn_furtherMembers depth ms (not_goesOn_newLine depth' ('\x7d' :: rest))
      rw [furtherMembers]
      simp only [List.cons_append, List.append_assoc, List.nil_append]
      rw [feed_punctuation _ (by decide) (by decide) rfl]
      show feed (.name (setMember k v done) fs) _ = _
      rw [feed_newLine, setMember_of_nodup hnodup,
        feed_member rfl (h _ List.mem_cons_self) depth hgoes]
      have hrest : (((done ++ [(k, v)]) ++ (j, w) :: ms).map Prod.fst).Nodup := by
        simpa using hnodup
      rw [ih (fun u hu => h u (List.mem_cons_of_mem _ hu)) hrest]
      simp

/-- **A value is read back from its text, whatever follows.** -/
theorem Plain.readsBack {v : Json} (hv : Plain v) : ReadsBack v := by
  induction hv with
  | null => exact readsBack_word (fun _ => rfl) (by decide) (List.all_eq_true.1 rfl) rfl
  | bool b =>
      cases b with
      | true => exact readsBack_word (fun _ => rfl) (by decide) (List.all_eq_true.1 rfl) rfl
      | false => exact readsBack_word (fun _ => rfl) (by decide) (List.all_eq_true.1 rfl) rfl
  | int hn =>
      exact readsBack_word (fun _ => rfl) (intText_ne_nil _)
        (fun _ => isWordChar_of_mem_intText) (wordToken_intText hn)
  | str text => exact readsBack_str text
  | @arr vs _ ih =>
      intro s fs hs depth rest _
      cases vs with
      | nil =>
          show feed s ('[' :: ']' :: rest) = _
          rw [feed_punctuation _ (by decide) (by decide) rfl, hs .openArray nofun]
          show feed (.itemOrClose fs) (']' :: rest) = _
          rw [feed_punctuation _ (by decide) (by decide) rfl]
          rfl
      | cons v vs =>
          have hgoes := not_goesOn_furtherItems (depth + 1) vs
            (not_goesOn_newLine depth (']' :: rest))
          rw [indented]
          simp only [List.cons_append, List.append_assoc, List.nil_append]
          rw [feed_punctuation _ (by decide) (by decide) rfl, hs .openArray nofun]
          show feed (.itemOrClose fs) _ = _
          rw [feed_newLine, ih v List.mem_cons_self (State.awaits_item fs) (depth + 1) hgoes,
            feed_furtherItems fun u hu => ih u (List.mem_cons_of_mem v hu)]
          rfl
  | @obj ms hnodup _ ih =>
      intro s fs hs depth rest _
      cases ms with
      | nil =>
          show feed s ('\x7b' :: '\x7d' :: rest) = _
          rw [feed_punctuation _ (by decide) (by decide) rfl, hs .openObject nofun]
          show feed (.nameOrClose fs) ('\x7d' :: rest) = _
          rw [feed_punctuation _ (by decide) (by decide) rfl]
          rfl
      | cons m ms =>
          obtain ⟨k, v⟩ := m
          have hgoes := not_goesOn_furtherMembers (depth + 1) ms
            (not_goesOn_newLine depth ('\x7d' :: rest))
          rw [indented]
          simp only [List.cons_append, List.append_assoc, List.nil_append]
          rw [feed_punctuation _ (by decide) (by decide) rfl, hs .openObject nofun]
          show feed (.nameOrClose fs) _ = _
          rw [feed_newLine, feed_member rfl (ih _ List.mem_cons_self) (depth + 1) hgoes,
            feed_furtherMembers (fun u hu => ih u (List.mem_cons_of_mem _ hu)) hnodup]
          rfl

/-- **The indented text of a value is parsed as the value.** -/
theorem parse_pretty {v : Json} (hv : Plain v) : parse (pretty v) = .ok v := by
  have hend : ¬ GoesOn [] := fun ⟨_, _, h, _⟩ => nomatch h
  have hfeed := hv.readsBack (State.awaits_value []) 0 hend
  rw [List.append_nil] at hfeed
  unfold parse pretty ofTokens
  rw [String.toList_ofList]
  show (feed (.value []) (indented 0 v) >>= State.result) = _
  rw [hfeed]
  rfl

end FiniteAutomata.Json
