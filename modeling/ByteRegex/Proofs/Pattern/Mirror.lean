-- Scanners that do what a reader does: from the same place they give the same result and the
-- same place behind it, or the same error, which points into the text. Their guards never
-- fail, as a reader has the rest of the text at hand. Here are the pieces up to brackets.
import ByteRegex.Proofs.Pattern.Scanner

namespace ByteRegex.Pattern

/-! ## Places in the text -/

/-- The place lies in the text, and the bytes from there on are those of the text. -/
structure Cursor.In (c : Cursor) (text : Bytes) : Prop where
  le : c.pos ≤ text.size
  rest : c.rest = text.toList.drop c.pos

theorem Cursor.skip_skip (c : Cursor) (m n : Nat) : (c.skip m).skip n = c.skip (m + n) := by
  simp [Cursor.skip, Nat.add_assoc]

namespace Cursor.In

variable {text : Bytes} {c d : Cursor} {b : UInt8} {bs : List UInt8}

theorem length_rest (h : c.In text) : c.rest.length = text.size - c.pos := by
  rw [h.rest, List.length_drop, Array.length_toList]

theorem skip (h : c.In text) {n : Nat} (hn : n ≤ c.rest.length) : (c.skip n).In text := by
  have hlen := h.length_rest
  have hle := h.le
  constructor
  · show c.pos + n ≤ text.size
    omega
  · show c.rest.drop n = text.toList.drop (c.pos + n)
    rw [h.rest, List.drop_drop]

/-- Less is left further on. -/
theorem pos_le (hc : c.In text) (hd : d.In text) (hle : d.rest.length ≤ c.rest.length) :
    c.pos ≤ d.pos := by
  have hc' := hc.length_rest
  have hd' := hd.length_rest
  have := hc.le
  have := hd.le
  omega

theorem getElem? (h : c.In text) (n : Nat) : text[c.pos + n]? = c.rest[n]? := by
  rw [h.rest, List.getElem?_drop, Array.getElem?_toList]

theorem tail (h : c.In text) (hrest : c.rest = b :: bs) : (⟨c.pos + 1, bs⟩ : Cursor).In text := by
  have hskip := h.skip (n := 1) (by simp [hrest])
  rwa [Cursor.skip, hrest] at hskip

theorem start (text : Bytes) : (⟨0, text.toList⟩ : Cursor).In text := ⟨Nat.zero_le _, rfl⟩

end Cursor.In

namespace Scanner

variable {α β : Type} {text : Bytes} {c d : Cursor}

/-- From the place `c` on, the scanner gives what a reader gave there: the same error, which points
into the text, or the same result and the same place behind it. -/
def Mirrors (text : Bytes) (g : Scanner α) (c : Cursor) : Except SyntaxError (α × Cursor) → Prop
  | .error e => g c.pos = some (.error e) ∧ e.index ≤ text.size
  | .ok (a, d) => g c.pos = some (.ok (a, d.pos)) ∧ d.In text

/-! ## Steps -/

theorem bind_ok {g : Scanner α} {f : α → Scanner β} {pos pos' : Nat} {a : α}
    (h : g pos = some (.ok (a, pos'))) : (g >>= f) pos = f a pos' := by
  simp only [bind, StateT.bind, ExceptT.bind, ExceptT.mk, h]
  rfl

theorem bind_error {g : Scanner α} {f : α → Scanner β} {pos : Nat} {e : SyntaxError}
    (h : g pos = some (.error e)) : (g >>= f) pos = some (.error e) := by
  simp only [bind, StateT.bind, ExceptT.bind, ExceptT.mk, h]
  rfl

theorem Mirrors.pure (h : c.In text) (a : α) : Mirrors text (pure a) c (.ok (a, c)) := ⟨rfl, h⟩

theorem Mirrors.fail (h : c.In text) (f : SyntaxFault) :
    Mirrors text (fail f : Scanner α) c (c.fail f) := ⟨rfl, h.le⟩

/-- A step whose result is known. -/
theorem Mirrors.step {g : Scanner α} {f : α → Scanner β} {a : α}
    {y : Except SyntaxError (β × Cursor)} (hg : Mirrors text g c (.ok (a, d)))
    (hf : d.In text → Mirrors text (f a) d y) : Mirrors text (g >>= f) c y := by
  have hrest := hf hg.2
  unfold Mirrors at hrest ⊢
  rw [bind_ok hg.1]
  exact hrest

/-- A step that fails. -/
theorem Mirrors.abort {g : Scanner α} {f : α → Scanner β} {e : SyntaxError}
    (hg : Mirrors text g c (.error e)) : Mirrors text (g >>= f) c (.error e) :=
  ⟨bind_error hg.1, hg.2⟩

/-- A step that may fail. -/
theorem Mirrors.bind {g : Scanner α} {f : α → Scanner β} {x : Except SyntaxError (α × Cursor)}
    {y : Except SyntaxError (β × Cursor)} (hg : Mirrors text g c x)
    (herror : ∀ e, x = .error e → y = .error e)
    (hok : ∀ a d, x = .ok (a, d) → d.In text → Mirrors text (f a) d y) :
    Mirrors text (g >>= f) c y := by
  cases x with
  | error e =>
    rw [herror e rfl]
    exact hg.abort
  | ok r => exact hg.step (hok r.1 r.2 rfl)

/-! ## Reads -/

theorem mirrors_get (h : c.In text) : Mirrors text get c (.ok (c.pos, c)) := ⟨rfl, h⟩

theorem mirrors_advance (h : c.In text) {n : Nat} (hn : n ≤ c.rest.length) :
    Mirrors text (advance n) c (.ok ((), c.skip n)) := ⟨rfl, h.skip hn⟩

/-- Going back to a place that was passed. -/
theorem mirrors_back (hc : c.In text) (hd : d.In text) {n : Nat} (hpos : c.pos = d.pos + n) :
    Mirrors text (back n) c (.ok ((), d)) := by
  unfold back
  refine (mirrors_get hc).step fun _ => ?_
  rw [if_pos (by omega)]
  refine ⟨?_, hd⟩
  show some (Except.ok ((), c.pos - n)) = _
  rw [hpos, Nat.add_sub_cancel]

theorem mirrors_byteAt (h : c.In text) {n : Nat} {b : UInt8} (hb : c.rest[n]? = some b) :
    Mirrors text (byteAt text (c.pos + n)) c (.ok (b, c)) := by
  refine ⟨?_, h⟩
  unfold byteAt
  rw [h.getElem?, hb]
  rfl

theorem mirrors_peek (h : c.In text) {b : UInt8} {bs : List UInt8} (hrest : c.rest = b :: bs) :
    Mirrors text (peek text) c (.ok (b, c)) :=
  (mirrors_get h).step fun h => mirrors_byteAt (n := 0) h (by rw [hrest]; rfl)

theorem mirrors_atEnd (h : c.In text) :
    Mirrors text (atEnd text) c (.ok (c.rest.isEmpty, c)) := by
  refine (mirrors_get h).step fun h => ?_
  have hend : decide (text.size ≤ c.pos) = c.rest.isEmpty := by
    rw [Bool.eq_iff_iff, decide_eq_true_eq, List.isEmpty_iff_length_eq_zero, h.length_rest]
    omega
  rw [hend]
  exact Mirrors.pure h _

/-- Both answers to the question whether the text ends here. -/
theorem Mirrors.ifAtEnd (h : c.In text) {g g' : Scanner β} {y : Except SyntaxError (β × Cursor)}
    (hend : c.rest = [] → Mirrors text g c y)
    (hmore : ∀ b bs, c.rest = b :: bs → Mirrors text g' c y) :
    Mirrors text (do if ← atEnd text then g else g') c y := by
  refine (mirrors_atEnd h).step fun _ => ?_
  cases hrest : c.rest with
  | nil => exact hend hrest
  | cons b bs => exact hmore b bs hrest

theorem mirrors_consume (h : c.In text) (ch : Char) :
    Mirrors text (consume text ch) c
      (.ok (c.sees ch, if c.sees ch then c.skip 1 else c)) := by
  unfold consume
  refine (mirrors_atEnd h).step fun h => ?_
  cases hrest : c.rest with
  | nil =>
    have : c.sees ch = false := by simp [Cursor.sees, Cursor.peek?, hrest]
    rw [this]
    exact Mirrors.pure h _
  | cons b bs =>
    have hsees : c.sees ch = decide (byteChar b = ch) := by
      rw [Bool.eq_iff_iff]
      simp [Cursor.sees, Cursor.peek?, hrest]
    refine (mirrors_peek h hrest).step fun h => ?_
    rw [hsees]
    split
    next hb =>
      rw [decide_eq_true hb]
      exact (mirrors_advance h (by simp [hrest])).step fun h => Mirrors.pure h _
    next hb =>
      rw [decide_eq_false hb]
      exact Mirrors.pure h _

/-- Both answers to the question whether a character is next. -/
theorem Mirrors.ifConsume (h : c.In text) (ch : Char) {g g' : Scanner β}
    {y : Except SyntaxError (β × Cursor)}
    (hyes : c.sees ch = true → (c.skip 1).In text → Mirrors text g (c.skip 1) y)
    (hno : c.sees ch = false → Mirrors text g' c y) :
    Mirrors text (do if ← consume text ch then g else g') c y := by
  refine (mirrors_consume h ch).step fun h' => ?_
  cases hs : c.sees ch with
  | true =>
    rw [hs] at h'
    exact hyes hs h'
  | false => exact hno hs

/-! ## Numbers -/

theorem mirrors_hexDigits {turns : Nat} (value : Nat) (h : c.In text)
    (hturns : c.rest.length < turns) :
    Mirrors text (hexDigits text turns value) c (hexRun c.pos value c.rest) := by
  induction turns generalizing c value with
  | zero => omega
  | succ turns ih =>
    obtain ⟨pos, rest⟩ := c
    unfold hexDigits
    refine Mirrors.ifAtEnd h (fun hrest => ?_) fun b bs hrest => ?_
    · obtain rfl : rest = [] := hrest
      exact Mirrors.pure h value
    · obtain rfl : rest = b :: bs := hrest
      refine (mirrors_peek h rfl).step fun h => ?_
      unfold hexRun
      cases hexValue? b with
      | none => exact Mirrors.pure h value
      | some digit =>
        dsimp only
        split
        · exact Mirrors.fail h _
        · refine (mirrors_advance (n := 1) h (by simp)).step fun h => ?_
          exact ih _ h (Nat.lt_of_succ_lt_succ hturns)

theorem rest_lt_turns (h : c.In text) : c.rest.length < text.size + 1 := by
  have := h.length_rest
  omega

theorem mirrors_bracedCodePoint (h : c.In text) :
    Mirrors text (bracedCodePoint text) c (Pattern.bracedCodePoint c) := by
  unfold bracedCodePoint Pattern.bracedCodePoint
  refine (mirrors_get h).step fun h => ?_
  have hdigits := mirrors_hexDigits 0 h (rest_lt_turns h)
  refine hdigits.bind (fun e he => by rw [he]) fun value d hd h' => ?_
  have hpos := h.pos_le h' (hexRun_le hd)
  rw [hd]
  refine (mirrors_get h').step fun h => ?_
  dsimp only
  split
  · rw [if_neg (by omega)]
    exact Mirrors.fail h _
  · have hlt : c.pos < d.pos := by omega
    refine Mirrors.ifConsume h _ (fun hs h' => ?_) fun hs => ?_
    · rw [if_pos ⟨hlt, hs⟩]
      exact Mirrors.pure h' value
    · rw [if_neg (by simp [hs])]
      exact Mirrors.fail h _

theorem mirrors_hexPair (h : c.In text) :
    Mirrors text (hexPair text) c (Pattern.hexPair c) := by
  obtain ⟨pos, rest⟩ := c
  have hlen := h.length_rest
  have hle := h.le
  unfold hexPair Pattern.hexPair
  refine (mirrors_get h).step fun h => ?_
  dsimp only at hlen hle ⊢
  match rest, hlen, h with
  | [], hlen, h =>
    rw [if_pos (by simp at hlen; omega)]
    exact Mirrors.fail h _
  | [_], hlen, h =>
    rw [if_pos (by simp at hlen; omega)]
    exact Mirrors.fail h _
  | a :: b :: rest, hlen, h =>
    rw [if_neg (by simp at hlen; omega)]
    refine (mirrors_byteAt (n := 0) h rfl).step fun h => ?_
    dsimp only
    cases hexValue? a with
    | none => exact Mirrors.fail h _
    | some m =>
      refine (mirrors_byteAt (n := 1) h rfl).step fun h => ?_
      cases hexValue? b with
      | none => exact Mirrors.fail h _
      | some n => exact (mirrors_advance (n := 2) h (by simp)).step fun h => Mirrors.pure h _

theorem mirrors_seesDigit (h : c.In text) :
    Mirrors text (seesDigit text) c (.ok (c.seesDigit, c)) := by
  obtain ⟨pos, rest⟩ := c
  unfold seesDigit Cursor.seesDigit
  refine Mirrors.ifAtEnd h (fun hrest => ?_) fun b bs hrest => ?_
  · obtain rfl : rest = [] := hrest
    exact Mirrors.pure h false
  · obtain rfl : rest = b :: bs := hrest
    exact (mirrors_peek h rfl).step fun h => Mirrors.pure h _

/-- Both answers to the question whether a digit is next. -/
theorem Mirrors.ifSeesDigit (h : c.In text) {g g' : Scanner β} {y : Except SyntaxError (β × Cursor)}
    (hyes : c.seesDigit = true → Mirrors text g c y)
    (hno : c.seesDigit = false → Mirrors text g' c y) :
    Mirrors text (do if ← seesDigit text then g else g') c y := by
  refine (mirrors_seesDigit h).step fun _ => ?_
  cases hd : c.seesDigit with
  | true => exact hyes hd
  | false => exact hno hd

theorem mirrors_decimalDigits {turns : Nat} (value : Nat) (h : c.In text)
    (hturns : c.rest.length < turns) :
    Mirrors text (decimalDigits text turns value) c (decimalRun c.pos value c.rest) := by
  induction turns generalizing c value with
  | zero => omega
  | succ turns ih =>
    obtain ⟨pos, rest⟩ := c
    unfold decimalDigits
    refine (mirrors_seesDigit h).step fun h => ?_
    cases rest with
    | nil => exact Mirrors.pure h value
    | cons b bs =>
      have hdigit : (⟨pos, b :: bs⟩ : Cursor).seesDigit = isDigitByte b := rfl
      rw [hdigit]
      unfold decimalRun
      split
      · refine (mirrors_peek h rfl).step fun h => ?_
        split
        · exact Mirrors.fail h _
        · refine (mirrors_advance (n := 1) h (by simp)).step fun h => ?_
          exact ih _ h (Nat.lt_of_succ_lt_succ hturns)
      · exact Mirrors.pure h value

theorem mirrors_bound (h : c.In text) : Mirrors text (bound text) c (Pattern.bound c) := by
  unfold bound Pattern.bound
  refine Mirrors.ifSeesDigit h (fun hd => ?_) fun hd => ?_
  · rw [if_pos hd]
    exact mirrors_decimalDigits 0 h (rest_lt_turns h)
  · rw [if_neg (by simp [hd])]
    exact Mirrors.fail h _

/-! ## Code points -/

/-- The tails are added up from the front, and reading stops at the first byte that is none. -/
theorem mirrors_tailBytes (h : c.In text) {n k : Nat} (value : Nat) (hn : k + n ≤ c.rest.length) :
    Mirrors text (tailBytes text n (c.pos + k) value) c
      (match ((c.rest.drop k).take n).mapM Utf8.tail? with
        | none => c.fail .invalidUtf8
        | some tails => .ok (tails.foldl (fun v t => v * 0x40 + t) value, c)) := by
  induction n generalizing k value with
  | zero => exact Mirrors.pure h value
  | succ n ih =>
    have hk : k < c.rest.length := by omega
    unfold tailBytes
    refine (mirrors_byteAt h (List.getElem?_eq_getElem hk)).step fun h => ?_
    rw [List.drop_eq_getElem_cons hk, List.take_succ_cons, List.mapM_cons]
    cases Utf8.tail? c.rest[k] with
    | none => exact Mirrors.fail h _
    | some bits =>
      have hrest := ih (k := k + 1) (value * 0x40 + bits) (by omega)
      simp only [Option.bind_eq_bind, Option.bind_some]
      cases hm : ((c.rest.drop (k + 1)).take n).mapM Utf8.tail? with
      | none =>
        rw [hm] at hrest
        exact hrest
      | some tails =>
        rw [hm] at hrest
        exact hrest

theorem mirrors_rawCodePoint {pos : Nat} {b : UInt8} {bs : List UInt8}
    (h : (⟨pos, b :: bs⟩ : Cursor).In text) :
    Mirrors text (rawCodePoint text) ⟨pos, b :: bs⟩ (Pattern.rawCodePoint pos b bs) := by
  have hlen := h.length_rest
  have hle := h.le
  simp only [List.length_cons] at hlen hle
  unfold rawCodePoint Pattern.rawCodePoint
  refine (mirrors_peek h rfl).step fun h => ?_
  cases Utf8.lead? b with
  | none => exact Mirrors.fail h _
  | some lead =>
    obtain ⟨n, bits⟩ := lead
    refine (mirrors_get h).step fun h => ?_
    dsimp only
    split
    · rw [if_pos (by omega)]
      exact Mirrors.fail h _
    · rw [if_neg (by omega)]
      have hn : 1 + n ≤ (b :: bs).length := by
        simp only [List.length_cons]
        omega
      have htail := mirrors_tailBytes h bits hn
      rw [List.drop_succ_cons, List.drop_zero] at htail
      cases hm : (bs.take n).mapM Utf8.tail? with
      | none =>
        rw [hm] at htail
        exact Mirrors.abort htail
      | some tails =>
        rw [hm] at htail
        refine htail.step fun h => ?_
        exact (mirrors_advance h (Nat.add_comm 1 n ▸ hn)).step fun h => Mirrors.pure h _

/-- A byte below 128 stands for itself. -/
theorem rawCodePoint_ascii {pos : Nat} {b : UInt8} (bs : List UInt8) (hb : b < 0x80) :
    Pattern.rawCodePoint pos b bs = .ok (b.toNat, ⟨pos + 1, bs⟩) := by
  unfold Pattern.rawCodePoint Utf8.lead?
  simp [hb]

theorem mirrors_codePoint {pos : Nat} {b : UInt8} {bs : List UInt8}
    (h : (⟨pos, b :: bs⟩ : Cursor).In text) :
    Mirrors text (codePoint text) ⟨pos, b :: bs⟩ (Pattern.codePoint pos b bs) := by
  unfold codePoint Pattern.codePoint
  refine Mirrors.ifConsume h _ (fun hs h' => ?_) fun hs => ?_
  · rw [if_pos (by simpa [Cursor.sees, Cursor.peek?] using hs)]
    change (⟨pos + 1, bs⟩ : Cursor).In text at h'
    unfold escapedCodePoint
    refine Mirrors.ifAtEnd h' (fun hrest => ?_) fun e rest hrest => ?_
    · obtain rfl : bs = [] := hrest
      exact Mirrors.fail h' _
    · obtain rfl : bs = e :: rest := hrest
      refine (mirrors_peek h' rfl).step fun h' => ?_
      refine (mirrors_advance (n := 1) h' (by simp)).step fun hnext => ?_
      dsimp only
      cases control? (byteChar e) with
      | some n => exact Mirrors.pure hnext n
      | none =>
        dsimp only
        split
        · refine Mirrors.ifConsume hnext _ (fun hs h'' => ?_) fun hs => ?_
          · rw [if_pos hs]
            exact mirrors_bracedCodePoint h''
          · rw [if_neg (by simp [hs])]
            exact mirrors_hexPair hnext
        · split
          next hascii =>
            rw [rawCodePoint_ascii rest hascii]
            exact Mirrors.pure hnext _
          next =>
            refine (mirrors_back hnext h' rfl).step fun h' => ?_
            exact mirrors_rawCodePoint h'
  · rw [if_neg (by simpa [Cursor.sees, Cursor.peek?] using hs)]
    exact mirrors_rawCodePoint h

/-! ## Brackets -/

theorem mirrors_shorthandAhead {pos : Nat} {b : UInt8} {bs : List UInt8}
    (h : (⟨pos, b :: bs⟩ : Cursor).In text) :
    Mirrors text (shorthandAhead text) ⟨pos, b :: bs⟩
      (.ok (if byteChar b = '\\' then (bs.head?.map byteChar).bind shorthand? else none,
        ⟨pos, b :: bs⟩)) := by
  have hlen := h.length_rest
  have hle := h.le
  simp only [List.length_cons] at hlen hle
  unfold shorthandAhead
  refine (mirrors_get h).step fun h => ?_
  refine (mirrors_peek h rfl).step fun h => ?_
  dsimp only
  split
  · cases bs with
    | nil =>
      rw [if_neg (by simp at hlen; omega)]
      exact Mirrors.pure h none
    | cons e rest =>
      rw [if_pos (by simp at hlen; omega)]
      exact (mirrors_byteAt (n := 1) h rfl).step fun h => Mirrors.pure h _
  · exact Mirrors.pure h none

/-- A dash is next, and no closing bracket behind it. -/
def dashNext (c : Cursor) : Bool := c.sees '-' && (c.skip 1).peek?.any (· ≠ ']')

theorem mirrors_dashAhead (h : c.In text) :
    Mirrors text (dashAhead text) c (.ok (dashNext c, c)) := by
  obtain ⟨pos, rest⟩ := c
  have hlen := h.length_rest
  have hle := h.le
  unfold dashAhead
  refine (mirrors_get h).step fun h => ?_
  dsimp only at hlen hle ⊢
  match rest, hlen, h with
  | [], hlen, h =>
    rw [if_neg (by simp at hlen; omega)]
    exact Mirrors.pure h false
  | [_], hlen, h =>
    rw [if_neg (by simp at hlen; omega)]
    have hno : ∀ b, dashNext ⟨pos, [b]⟩ = false := fun b => Bool.and_false _
    rw [hno]
    exact Mirrors.pure h false
  | a :: b :: rest, hlen, h =>
    rw [if_pos (by simp at hlen; omega)]
    refine (mirrors_peek h rfl).step fun h => ?_
    have hnext : dashNext ⟨pos, a :: b :: rest⟩ =
        (byteChar a == '-' && decide (byteChar b ≠ ']')) := rfl
    rw [hnext]
    split
    next ha =>
      rw [beq_iff_eq.2 ha]
      exact (mirrors_byteAt (n := 1) h rfl).step fun h => Mirrors.pure h _
    next ha =>
      rw [beq_eq_false_iff_ne.2 ha]
      exact Mirrors.pure h false

theorem dashNext_single (pos : Nat) (b : UInt8) : dashNext ⟨pos, [b]⟩ = false := Bool.and_false _

theorem dashNext_cons (pos : Nat) (a b : UInt8) (rest : List UInt8) :
    dashNext ⟨pos, a :: b :: rest⟩ = (byteChar a == '-' && decide (byteChar b ≠ ']')) := rfl

/-- Behind the first code point of an item. -/
theorem mirrors_rangeEnd (h : c.In text) (lo : Nat) :
    Mirrors text
      (do
        if ← dashAhead text then
          advance 1
          let hi ← codePoint text
          return [(lo, hi)]
        else return [(lo, lo)]) c
      (match c.rest with
        | dash :: b :: bs =>
          if byteChar dash = '-' ∧ byteChar b ≠ ']' then
            match Pattern.codePoint (c.pos + 1) b bs with
            | .error e => .error e
            | .ok (hi, d) => .ok ([(lo, hi)], d)
          else .ok ([(lo, lo)], c)
        | _ => .ok ([(lo, lo)], c)) := by
  obtain ⟨pos, rest⟩ := c
  refine (mirrors_dashAhead h).step fun h => ?_
  match rest, h with
  | [], h => exact Mirrors.pure h _
  | [b], h =>
    rw [dashNext_single]
    exact Mirrors.pure h _
  | a :: b :: rest, h =>
    rw [dashNext_cons]
    dsimp only
    by_cases hdash : byteChar a = '-' ∧ byteChar b ≠ ']'
    · rw [if_pos hdash, if_pos (by simp [hdash])]
      refine (mirrors_advance (n := 1) h (by simp)).step fun h => ?_
      refine (mirrors_codePoint h).bind (fun e he => by rw [he]) fun hi d hd h => ?_
      rw [hd]
      exact Mirrors.pure h _
    · rw [if_neg hdash, if_neg (by simpa using hdash)]
      exact Mirrors.pure h _

theorem mirrors_bracketItem {pos : Nat} {b : UInt8} {bs : List UInt8}
    (h : (⟨pos, b :: bs⟩ : Cursor).In text) :
    Mirrors text (bracketItem text) ⟨pos, b :: bs⟩ (Pattern.bracketItem pos b bs) := by
  unfold bracketItem Pattern.bracketItem
  refine (mirrors_shorthandAhead h).step fun h => ?_
  cases hnamed : (if byteChar b = '\\' then (bs.head?.map byteChar).bind shorthand? else none) with
  | some ranges =>
    have hne : bs ≠ [] := by
      rintro rfl
      simp at hnamed
    have hn : 2 ≤ (b :: bs).length := Nat.succ_le_succ (List.length_pos_iff.2 hne)
    exact (mirrors_advance (n := 2) h hn).step fun h => Mirrors.pure h _
  | none =>
    refine (mirrors_codePoint h).bind (fun e he => by rw [he]) fun lo d hlo h => ?_
    rw [hlo]
    exact mirrors_rangeEnd h lo

theorem mirrors_bracketRanges {turns : Nat} {first : Bool} {ranges : List (Nat × Nat)}
    (h : c.In text) (hturns : c.rest.length < turns) :
    Mirrors text (bracketRanges text turns first ranges) c
      (Pattern.bracketRanges c first ranges) := by
  induction turns generalizing c first ranges with
  | zero => omega
  | succ turns ih =>
    obtain ⟨pos, rest⟩ := c
    unfold bracketRanges Pattern.bracketRanges
    refine Mirrors.ifAtEnd h (fun hrest => ?_) fun b bs hrest => ?_
    · obtain rfl : rest = [] := hrest
      exact Mirrors.fail h _
    · obtain rfl : rest = b :: bs := hrest
      refine (mirrors_peek h rfl).step fun h => ?_
      dsimp only
      split
      · exact (mirrors_advance (n := 1) h (by simp)).step fun h => Mirrors.pure h _
      · have hitem := mirrors_bracketItem h
        split
        next e he =>
          rw [he] at hitem
          exact Mirrors.abort hitem
        next new d hd =>
          rw [hd] at hitem
          refine hitem.step fun h => ih h ?_
          exact Nat.lt_of_le_of_lt (bracketItem_le hd) (Nat.lt_of_succ_lt_succ hturns)

theorem mirrors_bracket (h : c.In text) (loc : Location) :
    Mirrors text (bracket text loc) c (Pattern.bracket loc c) := by
  unfold bracket Pattern.bracket
  refine (mirrors_consume h _).step fun h => ?_
  refine (mirrors_bracketRanges h (rest_lt_turns h)).bind (fun e he => ?_) fun ranges d hd h => ?_
  · dsimp only
    rw [he]
  · dsimp only
    rw [hd]
    exact Mirrors.pure h _

end Scanner

end ByteRegex.Pattern
