-- The guarded reader has a result for every text, and it is that of `parse`: no token needs a
-- byte outside the text, every loop comes to its end, and no error points behind the text.
import ByteRegex.Proofs.Pattern.Mirror

namespace ByteRegex.Pattern

namespace Scanner

variable {β : Type} {text : Bytes} {c : Cursor}

/-! ## Tokens -/

theorem mirrors_bracedBounds (h : c.In text) :
    Mirrors text (bracedBounds text) c (Pattern.bracedBounds c) := by
  unfold bracedBounds Pattern.bracedBounds
  refine (mirrors_bound h).bind (fun e he => by rw [he]) fun min d hd h => ?_
  rw [hd]
  dsimp only
  refine Mirrors.ifConsume h _ (fun hs h => ?_) fun hs => ?_
  · rw [if_pos hs]
    refine Mirrors.ifConsume h _ (fun hs h => ?_) fun hs => ?_
    · rw [if_pos hs, ← Cursor.skip_skip d 1 1]
      exact Mirrors.pure h _
    · rw [if_neg (by simp [hs])]
      refine (mirrors_bound h).bind (fun e he => by rw [he]) fun max d' hd h => ?_
      rw [hd]
      dsimp only
      refine Mirrors.ifConsume h _ (fun hs h => ?_) fun hs => ?_
      · rw [if_pos hs]
        exact Mirrors.pure h _
      · rw [if_neg (by simp [hs])]
        exact Mirrors.fail h _
  · rw [if_neg (by simp [hs])]
    refine Mirrors.ifConsume h _ (fun hs h => ?_) fun hs => ?_
    · rw [if_pos hs]
      exact Mirrors.pure h _
    · rw [if_neg (by simp [hs])]
      exact Mirrors.fail h _

/-- What `bounds?` reads, and the place behind it. -/
def boundsOrNone (c : Cursor) : Except SyntaxError (Option (Nat × Option Nat) × Cursor) :=
  match bounds? c with
  | none => .ok (none, c)
  | some (.error e) => .error e
  | some (.ok (v, d)) => .ok (some v, d)

theorem mirrors_bounds (h : c.In text) : Mirrors text (bounds text) c (boundsOrNone c) := by
  unfold bounds boundsOrNone bounds?
  refine Mirrors.ifConsume h _ (fun hs h => ?_) fun hs => ?_
  · rw [if_pos hs]
    exact Mirrors.pure h _
  rw [if_neg (by simp [hs])]
  refine Mirrors.ifConsume h _ (fun hs h => ?_) fun hs => ?_
  · rw [if_pos hs]
    exact Mirrors.pure h _
  rw [if_neg (by simp [hs])]
  refine Mirrors.ifConsume h _ (fun hs h => ?_) fun hs => ?_
  · rw [if_pos hs]
    exact Mirrors.pure h _
  rw [if_neg (by simp [hs])]
  refine Mirrors.ifConsume h _ (fun hs h' => ?_) fun hs => ?_
  · refine Mirrors.ifSeesDigit h' (fun hd => ?_) fun hd => ?_
    · rw [if_pos ⟨hs, hd⟩]
      refine (mirrors_bracedBounds h').bind (fun e he => by rw [he]) fun v d hd h => ?_
      rw [hd]
      exact Mirrors.pure h _
    · rw [if_neg (by simp [hd])]
      exact (mirrors_back h' h rfl).step fun h => Mirrors.pure h none
  · rw [if_neg (by simp [hs])]
    exact Mirrors.pure h none

/-- A number in braces stands for one code point. -/
theorem escapedCodePoint_braced {pos : Nat} {e : UInt8} {rest : List UInt8}
    (hx : byteChar e = 'x') (hs : ((⟨pos, e :: rest⟩ : Cursor).skip 1).sees '\x7b' = true) :
    escapedCodePoint ⟨pos, e :: rest⟩ =
      Pattern.bracedCodePoint (((⟨pos, e :: rest⟩ : Cursor).skip 1).skip 1) := by
  have hcontrol : control? (byteChar e) = none := by rw [hx]; rfl
  unfold escapedCodePoint
  dsimp only
  rw [hcontrol]
  dsimp only
  rw [if_pos hx, if_pos hs, Cursor.skip_skip]

/-- The backslash is read again. -/
theorem mirrors_codePoint_again {pos : Nat} {b : UInt8} {bs : List UInt8} (hb : byteChar b = '\\')
    (h : (⟨pos, b :: bs⟩ : Cursor).In text) :
    Mirrors text (codePoint text) ⟨pos, b :: bs⟩ (escapedCodePoint ⟨pos + 1, bs⟩) := by
  have hagain : Pattern.codePoint pos b bs = escapedCodePoint ⟨pos + 1, bs⟩ := if_pos hb
  rw [← hagain]
  exact mirrors_codePoint h

theorem mirrors_escapedToken {pos : Nat} {b : UInt8} {bs : List UInt8} (hb : byteChar b = '\\')
    (h : (⟨pos, b :: bs⟩ : Cursor).In text) (loc : Location) :
    Mirrors text (escapedToken text loc) ⟨pos + 1, bs⟩
      (Pattern.escapedToken loc ⟨pos + 1, bs⟩) := by
  have h' := h.tail rfl
  unfold escapedToken Pattern.escapedToken
  refine Mirrors.ifAtEnd h' (fun hrest => ?_) fun e rest hrest => ?_
  · obtain rfl : bs = [] := hrest
    exact Mirrors.fail h' _
  · obtain rfl : bs = e :: rest := hrest
    have hpeek : (⟨pos + 1, e :: rest⟩ : Cursor).peek?.bind (escapedNode? loc)
        = escapedNode? loc (byteChar e) := rfl
    have hsees : (⟨pos + 1, e :: rest⟩ : Cursor).sees 'x' = true ↔ byteChar e = 'x' := by
      simp [Cursor.sees, Cursor.peek?]
    refine (mirrors_peek h' rfl).step fun h' => ?_
    refine (mirrors_advance (n := 1) h' (by simp)).step fun hnext => ?_
    rw [hpeek]
    cases escapedNode? loc (byteChar e) with
    | some p => exact Mirrors.pure hnext _
    | none =>
      dsimp only
      split
      next hx =>
        refine Mirrors.ifConsume hnext _ (fun hs h'' => ?_) fun hs => ?_
        · rw [if_neg (by simp [hs]), escapedCodePoint_braced hx hs]
          refine (mirrors_bracedCodePoint h'').bind (fun e he => by rw [he]) fun n d hd h => ?_
          rw [hd]
          exact Mirrors.pure h _
        · rw [if_pos ⟨hsees.2 hx, hs⟩]
          refine (mirrors_hexPair hnext).bind (fun e he => by rw [he]) fun n d hd h => ?_
          rw [hd]
          exact Mirrors.pure h _
      next hx =>
        rw [if_neg fun hand => hx (hsees.1 hand.1)]
        refine (mirrors_back hnext h rfl).step fun h => ?_
        refine (mirrors_codePoint_again hb h).bind (fun e he => by rw [he]) fun n d hd h => ?_
        rw [hd]
        exact Mirrors.pure h _

/-! ## Groups -/

/-- The next bytes are these characters. -/
def seesText (c : Cursor) : List Char → Bool
  | [] => true
  | ch :: s => c.sees ch && seesText (c.skip 1) s

theorem seesText_iff {s : List Char} :
    seesText c s = true ↔ (c.rest.take s.length).map byteChar = s := by
  induction s generalizing c with
  | nil => simp [seesText]
  | cons ch s ih =>
    obtain ⟨pos, rest⟩ := c
    cases rest with
    | nil => simp [seesText, Cursor.sees, Cursor.peek?]
    | cons b bs => simp [seesText, Cursor.sees, Cursor.peek?, ih, Cursor.skip]

theorem length_of_seesText {s : List Char} (hs : seesText c s = true) :
    s.length ≤ c.rest.length := by
  have := congrArg List.length (seesText_iff.1 hs)
  rw [List.length_map, List.length_take] at this
  omega

theorem mirrors_consumeText (h : c.In text) (s : List Char) :
    Mirrors text (consumeText text s) c
      (.ok (seesText c s, if seesText c s then c.skip s.length else c)) := by
  unfold consumeText
  refine (mirrors_get h).step fun h => ?_
  rw [if_neg (Nat.not_lt_of_le h.le), ← h.rest]
  cases hs : seesText c s with
  | true =>
    rw [if_pos (seesText_iff.1 hs)]
    exact (mirrors_advance h (length_of_seesText hs)).step fun h => Mirrors.pure h _
  | false =>
    rw [if_neg fun heq => by rw [seesText_iff.2 heq] at hs; cases hs]
    exact Mirrors.pure h _

/-- Both answers to the question whether certain characters are next. -/
theorem Mirrors.ifConsumeText (h : c.In text) (s : List Char) {g g' : Scanner β}
    {y : Except SyntaxError (β × Cursor)}
    (hyes : seesText c s = true → (c.skip s.length).In text → Mirrors text g (c.skip s.length) y)
    (hno : seesText c s = false → Mirrors text g' c y) :
    Mirrors text (do if ← consumeText text s then g else g') c y := by
  refine (mirrors_consumeText h s).step fun h' => ?_
  cases hs : seesText c s with
  | true =>
    rw [hs] at h'
    exact hyes hs h'
  | false => exact hno hs

theorem mirrors_byteBehind (h : c.In text) {m n : Nat} {b : UInt8} (hb : c.rest[m]? = some b)
    (hd : (c.skip (m + n)).In text) :
    Mirrors text (byteBehind text n) (c.skip (m + n)) (.ok (b, c.skip (m + n))) := by
  unfold byteBehind
  refine (mirrors_get hd).step fun hd => ?_
  have hpos : (c.skip (m + n)).pos = c.pos + m + n := (Nat.add_assoc _ _ _).symm
  rw [if_pos (by omega), hpos, Nat.add_sub_cancel]
  exact ⟨by rw [byteAt, h.getElem?, hb]; rfl, hd⟩

theorem mirrors_lookToken (h : c.In text) {m : Nat} {arrow sign : Char}
    (harrow : (c.skip m).peek? = some arrow) (hsign : (c.skip (m + 1)).peek? = some sign)
    (hd : (c.skip (m + 2)).In text) :
    Mirrors text (lookToken text) (c.skip (m + 2))
      (.ok (.opening (.around (decide (arrow = '<')) (decide (sign = '!'))), c.skip (m + 2))) := by
  simp only [Cursor.peek?, Cursor.skip, List.head?_drop, Option.map_eq_some_iff] at harrow hsign
  obtain ⟨a, ha, rfl⟩ := harrow
  obtain ⟨b, hb, rfl⟩ := hsign
  unfold lookToken
  refine (mirrors_byteBehind h ha hd).step fun hd => ?_
  exact (mirrors_byteBehind (n := 1) h hb hd).step fun hd => Mirrors.pure hd _

theorem mirrors_consumeAny_none (h : c.In text) {ss : List (List Char)}
    (hno : ∀ s ∈ ss, seesText c s = false) :
    Mirrors text (consumeAny text ss) c (.ok (false, c)) := by
  induction ss with
  | nil => exact Mirrors.pure h false
  | cons s ss ih =>
    unfold consumeAny
    refine Mirrors.ifConsumeText h s (fun hs _ => ?_) fun hs => ?_
    · rw [hno s List.mem_cons_self] at hs
      cases hs
    · exact ih fun s' hs' => hno s' (List.mem_cons_of_mem s hs')

/-- Among the marks the first one that is next is passed over. -/
theorem mirrors_consumeAny (h : c.In text) (before : List (List Char)) {after : List (List Char)}
    {s : List Char} (hno : ∀ s' ∈ before, seesText c s' = false) (hs : seesText c s = true) :
    Mirrors text (consumeAny text (before ++ s :: after)) c (.ok (true, c.skip s.length)) := by
  induction before with
  | nil =>
    show Mirrors text (consumeAny text (s :: after)) c _
    unfold consumeAny
    refine Mirrors.ifConsumeText h s (fun _ h => Mirrors.pure h true) fun hf => ?_
    rw [hs] at hf
    cases hf
  | cons s' before ih =>
    show Mirrors text (consumeAny text (s' :: (before ++ s :: after))) c _
    unfold consumeAny
    refine Mirrors.ifConsumeText h s' (fun hs' _ => ?_) fun _ => ?_
    · rw [hno s' List.mem_cons_self] at hs'
      cases hs'
    · exact ih fun s'' hs'' => hno s'' (List.mem_cons_of_mem s' hs'')

/-- A text that is not next leaves everything as it is. -/
theorem Mirrors.skipText (h : c.In text) {s : List Char} {g g' : Scanner β}
    {y : Except SyntaxError (β × Cursor)} (hs : seesText c s = false) (hg : Mirrors text g' c y) :
    Mirrors text (do if ← consumeText text s then g else g') c y := by
  refine Mirrors.ifConsumeText h s (fun hyes _ => ?_) fun _ => hg
  rw [hs] at hyes
  cases hyes

theorem mirrors_groupToken (h : c.In text) :
    Mirrors text (groupToken text) c (Pattern.groupToken c) := by
  have hword : ∀ s, seesText c ('?' :: s) = (c.sees '?' && seesText (c.skip 1) s) := fun _ => rfl
  unfold groupToken Pattern.groupToken
  cases hq : c.sees '?' with
  | false =>
    have hno : ∀ s, seesText c ('?' :: s) = false := fun s => by rw [hword, hq, Bool.false_and]
    refine Mirrors.skipText h (hno _) ?_
    refine (mirrors_consumeAny_none h (by simp [lookMarks, hno])).step fun h => ?_
    refine Mirrors.ifAtEnd h (fun _ => Mirrors.pure h _) fun b bs hrest => ?_
    refine (mirrors_peek h hrest).step fun h => ?_
    rw [if_neg (by simpa [Cursor.sees, Cursor.peek?, hrest] using hq)]
    exact Mirrors.pure h _
  | true =>
    have hpeek : c.peek? = some '?' := beq_iff_eq.1 hq
    have htwo : ∀ x, seesText c ['?', x] = ((c.skip 1).peek? == some x) := fun x => by
      rw [hword, hq, Bool.true_and, seesText, seesText, Bool.and_true, Cursor.sees]
    have hthree : ∀ x, seesText c ['?', '<', x] =
        ((c.skip 1).peek? == some '<' && (c.skip 2).peek? == some x) := fun x => by
      rw [hword, hq, Bool.true_and, seesText, seesText, seesText, Bool.and_true, Cursor.skip_skip]
      rfl
    rw [if_pos rfl]
    -- one case for each mark, in the order in which they are tried, and one where none is next
    split
    next _ _ h1 =>
      refine Mirrors.ifConsumeText h _ (fun _ h => Mirrors.pure h _) fun hs => ?_
      simp [htwo, h1] at hs
    next _ _ h1 =>
      refine Mirrors.skipText h (by simp [htwo, h1]) ?_
      refine (mirrors_consumeAny h [] (by simp) (by simp [htwo, h1])).step fun hd => ?_
      exact mirrors_lookToken (m := 0) h hpeek h1 hd
    next _ _ h1 =>
      refine Mirrors.skipText h (by simp [htwo, h1]) ?_
      refine (mirrors_consumeAny h [['?', '=']] (by simp [htwo, h1])
        (by simp [htwo, h1])).step fun hd => ?_
      exact mirrors_lookToken (m := 0) h hpeek h1 hd
    next _ _ h1 h2 =>
      refine Mirrors.skipText h (by simp [htwo, h1]) ?_
      refine (mirrors_consumeAny h [['?', '='], ['?', '!']] (by simp [htwo, h1])
        (by simp [hthree, h1, h2])).step fun hd => ?_
      exact mirrors_lookToken (m := 1) h h1 h2 hd
    next _ _ h1 h2 =>
      refine Mirrors.skipText h (by simp [htwo, h1]) ?_
      refine (mirrors_consumeAny h [['?', '='], ['?', '!'], ['?', '<', '=']]
        (by simp [htwo, hthree, h1, h2]) (by simp [hthree, h1, h2])).step fun hd => ?_
      exact mirrors_lookToken (m := 1) h h1 h2 hd
    next _ _ hcolon hequal hbang hahead hbehind =>
      refine Mirrors.skipText h (by simpa [htwo] using hcolon) ?_
      refine (mirrors_consumeAny_none h ?_).step fun h => ?_
      · simpa [lookMarks, htwo, hthree] using ⟨hequal, hbang, hahead, hbehind⟩
      · have hne := Cursor.rest_ne_nil_of_sees hq
        refine Mirrors.ifAtEnd h (fun hrest => absurd hrest hne) fun b bs hrest => ?_
        refine (mirrors_peek h hrest).step fun h => ?_
        rw [if_pos (by simpa [Cursor.sees, Cursor.peek?, hrest] using hq)]
        exact Mirrors.fail h _

/-! ## The whole text -/

theorem mirrors_itemToken {pos : Nat} {b : UInt8} {bs : List UInt8}
    (h : (⟨pos, b :: bs⟩ : Cursor).In text) :
    Mirrors text (itemToken text) ⟨pos, b :: bs⟩ (Pattern.itemToken pos b bs) := by
  have hadvance := mirrors_advance (n := 1) h (by simp)
  unfold itemToken
  refine (mirrors_get h).step fun h => ?_
  refine (mirrors_peek h rfl).step fun h => ?_
  dsimp only
  split
  case h_12 hbackslash _ _ _ =>
    -- no backslash is here, so both ways to read one code point agree
    have hplain : Pattern.codePoint pos b bs = Pattern.rawCodePoint pos b bs := if_neg hbackslash
    refine (mirrors_codePoint h).bind (fun e he => ?_) fun n d hd h => ?_
    · rw [hplain] at he
      unfold Pattern.itemToken
      split <;> first | contradiction | rw [he]
    · rw [hplain] at hd
      have hitem : Pattern.itemToken pos b bs =
          .ok (.leaf (.chars (some pos) [(n, n)] false), d) := by
        unfold Pattern.itemToken
        split <;> first | contradiction | rw [hd]
      rw [hitem]
      exact Mirrors.pure h _
  all_goals
    rename_i hch
    unfold Pattern.itemToken
    rw [hch]
  case h_3 => exact hadvance.step fun h => mirrors_groupToken h
  case h_4 => exact hadvance.step fun h => mirrors_bracket h _
  case h_8 => exact hadvance.step fun _ => mirrors_escapedToken hch h _
  case h_9 => exact Mirrors.fail h _
  case h_10 => exact Mirrors.fail h _
  case h_11 => exact Mirrors.fail h _
  all_goals exact hadvance.step fun h => Mirrors.pure h _

theorem mirrors_token {pos : Nat} {b : UInt8} {bs : List UInt8} (behindItem : Bool)
    (h : (⟨pos, b :: bs⟩ : Cursor).In text) :
    Mirrors text (token text behindItem) ⟨pos, b :: bs⟩ (Pattern.token behindItem pos b bs) := by
  unfold token Pattern.token
  cases behindItem with
  | false => exact (Mirrors.pure h none).step fun h => mirrors_itemToken h
  | true =>
    have hbounds := mirrors_bounds h
    unfold boundsOrNone at hbounds
    simp only [if_true]
    cases hb : bounds? ⟨pos, b :: bs⟩ with
    | none =>
      rw [hb] at hbounds
      exact hbounds.step fun h => mirrors_itemToken h
    | some read =>
      rw [hb] at hbounds
      match read, hbounds with
      | .error e, hbounds => exact Mirrors.abort hbounds
      | .ok (v, d), hbounds =>
        refine hbounds.step fun h => ?_
        refine (mirrors_consume h '?').step fun h => ?_
        dsimp only
        cases hs : d.sees '?' with
        | true =>
          rw [hs] at h
          exact Mirrors.pure h _
        | false =>
          rw [hs] at h
          exact Mirrors.pure h _

theorem step_error_index {s : ParseState} {pos next : Nat} {t : Token} {e : SyntaxError}
    (h : s.step pos t next = .error e) : e.index = pos := by
  unfold ParseState.step at h
  split at h
  case h_5 =>
    split at h
    · cases h
      rfl
    · cases h
  all_goals cases h

/-- The tree behind the last byte. -/
def finished (text : Bytes) : Except SyntaxError Pattern → Except SyntaxError (Pattern × Cursor)
  | .error e => .error e
  | .ok p => .ok (p, ⟨text.size, []⟩)

theorem mirrors_run {turns : Nat} {s : ParseState} (h : c.In text)
    (hturns : c.rest.length < turns) :
    Mirrors text (run text turns s) c (finished text (s.run c)) := by
  induction turns generalizing c s with
  | zero => omega
  | succ turns ih =>
    obtain ⟨pos, rest⟩ := c
    unfold run ParseState.run
    refine Mirrors.ifAtEnd h (fun hrest => ?_) fun b bs hrest => ?_
    · obtain rfl : rest = [] := hrest
      have hend : pos = text.size := by
        have hle := h.le
        have hlen := h.length_rest
        simp only [List.length_nil] at hle hlen
        omega
      dsimp only
      cases s.groups with
      | nil =>
        subst hend
        exact Mirrors.pure h _
      | cons => exact Mirrors.fail h _
    · obtain rfl : rest = b :: bs := hrest
      refine (mirrors_get h).step fun h => ?_
      have htoken := mirrors_token (!s.level.items.isEmpty) h
      dsimp only
      split
      next e he =>
        rw [he] at htoken
        exact Mirrors.abort htoken
      next t d hd =>
        rw [hd] at htoken
        refine htoken.step fun h' => ?_
        refine (mirrors_get h').step fun h' => ?_
        cases hs : s.step pos t d.pos with
        | error e =>
          exact ⟨rfl, by rw [step_error_index hs]; exact h.le⟩
        | ok s' =>
          exact ih h' (Nat.lt_of_le_of_lt (token_le hd) (Nat.lt_of_succ_lt_succ hturns))

end Scanner

/-- No read of the guarded reader leaves the text and all its loops end: it has a result, and this
is that of `parse`. An error points into the text, or just behind it. -/
theorem parse?_eq (text : Bytes) :
    parse? text = some (parse text.toList) ∧
      ∀ e, parse text.toList = .error e → e.index ≤ text.size := by
  have h := Cursor.In.start text
  have hrun := Scanner.mirrors_run (s := ⟨.begin 0, []⟩) h (Scanner.rest_lt_turns h)
  unfold parse? parse
  cases hparse : ParseState.run ⟨.begin 0, []⟩ ⟨0, text.toList⟩ with
  | error e =>
    rw [hparse] at hrun
    refine ⟨?_, fun e' he => ?_⟩
    · rw [hrun.1]
    · cases he
      exact hrun.2
  | ok p =>
    rw [hparse] at hrun
    refine ⟨?_, nofun⟩
    rw [hrun.1]

/-- What a bracket lacks, it lacks behind the last byte. -/
example : parse? #[0x5b] = some (.error ⟨.unterminatedClass, 1⟩) := rfl

end ByteRegex.Pattern
