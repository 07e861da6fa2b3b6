import ZipMount.Locator
import ZipMount.Proofs.Text

namespace ZipMount

namespace FileUri

theorem digit_lt {n : Nat} (hn : n < 16) : (digit n).toNat < 128 := by
  revert n
  decide

theorem utf8EncodeChar_digit {n : Nat} (hn : n < 16) :
    String.utf8EncodeChar (digit n) = [UInt8.ofNat (digit n).toNat] :=
  Text.utf8EncodeChar_of_ascii (digit_lt hn)

theorem digitValue?_digit {n : Nat} (hn : n < 16) :
    digitValue? (UInt8.ofNat (digit n).toNat) = some (UInt8.ofNat n) := by
  revert n
  decide

theorem digit_ne_mark {n : Nat} (hn : n < 16) : digit n ≠ '!' := by
  revert n
  decide

theorem digit_ne_plus {n : Nat} (hn : n < 16) : UInt8.ofNat (digit n).toNat ≠ 43 := by
  revert n
  decide

/-- The two digits of a byte give the byte. -/
theorem numberValue?_digits (b : UInt8) :
    numberValue? (UInt8.ofNat (digit (b.toNat / 16)).toNat)
      (UInt8.ofNat (digit (b.toNat % 16)).toNat) = some b := by
  have hlt := b.toNat_lt
  have hhigh : b.toNat / 16 < 16 := by omega
  have hlow : b.toNat % 16 < 16 := Nat.mod_lt _ (by omega)
  rw [numberValue?, if_neg (digit_ne_plus hhigh), digitValue?_digit hhigh, digitValue?_digit hlow]
  change some (16 * UInt8.ofNat (b.toNat / 16) + UInt8.ofNat (b.toNat % 16)) = some b
  congr 1
  apply UInt8.toNat_inj.mp
  rw [UInt8.toNat_add, UInt8.toNat_mul, UInt8.toNat_ofNat', UInt8.toNat_ofNat']
  change (16 * (b.toNat / 16 % 256) % 256 + b.toNat % 16 % 256) % 256 = b.toNat
  omega

theorem plain_bounds {b : UInt8} (hb : isPlain b = true) : b.toNat < 128 ∧ b ≠ 37 := by
  have hall : ∀ n < 256, isPlain (UInt8.ofNat n) = true → n < 128 ∧ UInt8.ofNat n ≠ 37 := by
    decide +kernel
  have hself : UInt8.ofNat b.toNat = b := UInt8.ofNat_toNat
  have hb' := hall b.toNat b.toNat_lt
  rw [hself] at hb'
  exact hb' hb

theorem utf8EncodeChar_of_lt {b : UInt8} (hb : b.toNat < 128) :
    String.utf8EncodeChar (Char.ofNat b.toNat) = [b] := by
  have hall : ∀ n < 128, String.utf8EncodeChar (Char.ofNat n) = [UInt8.ofNat n] := by
    decide +kernel
  rw [hall b.toNat hb, UInt8.ofNat_toNat]

theorem unescape?_cons {b : UInt8} (hb : b ≠ 37) (rest : List UInt8) :
    unescape? (b :: rest) = (unescape? rest).map (b :: ·) := by
  rw [unescape?.eq_def]
  simp only [hb, if_false]

theorem unescape?_percent {h l v : UInt8} (hv : numberValue? h l = some v) (rest : List UInt8) :
    unescape? (37 :: h :: l :: rest) = (unescape? rest).map (v :: ·) := by
  rw [unescape?.eq_def]
  simp only [if_true, hv]
  cases unescape? rest <;> rfl

theorem bytes_ofList_cons (c : Char) (cs : List Char) :
    Text.bytes (String.ofList (c :: cs)) =
      String.utf8EncodeChar c ++ Text.bytes (String.ofList cs) := by
  rw [Text.bytes_ofList, Text.bytes_ofList, List.flatMap_cons]

theorem toNat_ofNat_lt {n : Nat} (hn : n < 128) : (Char.ofNat n).toNat < 128 := by
  revert n
  decide

/-- Characters that stand for bytes: an ASCII byte other than the percent sign may stand for itself,
and any byte may stand as a number. -/
inductive Spells : List Char → List UInt8 → Prop
  | nil : Spells [] []
  | plain {b : UInt8} {cs : List Char} {bs : List UInt8} (hb : b.toNat < 128) (hne : b ≠ 37)
      (h : Spells cs bs) : Spells (Char.ofNat b.toNat :: cs) (b :: bs)
  | number (b : UInt8) {cs : List Char} {bs : List UInt8} (h : Spells cs bs) :
      Spells ('%' :: digit (b.toNat / 16) :: digit (b.toNat % 16) :: cs) (b :: bs)

theorem spells_escaped (bs : List UInt8) : Spells (bs.flatMap escaped) bs := by
  induction bs with
  | nil => exact .nil
  | cons b bs ih =>
    rw [List.flatMap_cons, escaped]
    cases hplain : isPlain b with
    | true =>
      obtain ⟨hlt, hne⟩ := plain_bounds hplain
      exact .plain hlt hne ih
    | false => exact .number b ih

/-- Characters are read as the bytes they stand for. -/
theorem Spells.unescape? {cs : List Char} {bs : List UInt8} (h : Spells cs bs) :
    FileUri.unescape? (Text.bytes (String.ofList cs)) = some bs := by
  induction h with
  | nil => rfl
  | plain hb hne _ ih =>
    rw [bytes_ofList_cons, utf8EncodeChar_of_lt hb, List.singleton_append, unescape?_cons hne, ih]
    rfl
  | number b _ ih =>
    have hlt := b.toNat_lt
    have hhigh : b.toNat / 16 < 16 := by omega
    have hlow : b.toNat % 16 < 16 := Nat.mod_lt _ (by omega)
    have hpercent : String.utf8EncodeChar '%' = [37] := by decide
    rw [bytes_ofList_cons, bytes_ofList_cons, bytes_ofList_cons, hpercent,
      utf8EncodeChar_digit hhigh, utf8EncodeChar_digit hlow, List.singleton_append,
      List.singleton_append, List.singleton_append, unescape?_percent (numberValue?_digits b), ih]
    rfl

theorem Spells.ascii {cs : List Char} {bs : List UInt8} (h : Spells cs bs) :
    ∀ c ∈ cs, c.toNat < 128 := by
  induction h with
  | nil =>
    intro c hc
    cases hc
  | plain hb _ _ ih =>
    intro c hc
    rcases List.mem_cons.mp hc with rfl | hc
    · exact toNat_ofNat_lt hb
    · exact ih c hc
  | number b _ ih =>
    have hlt := b.toNat_lt
    intro c hc
    simp only [List.mem_cons] at hc
    rcases hc with rfl | rfl | rfl | hc
    · decide
    · exact digit_lt (by omega)
    · exact digit_lt (Nat.mod_lt _ (by omega))
    · exact ih c hc

/-- The URI that names bytes after the root is read as the absolute path of these bytes. -/
theorem Spells.toPathname? {cs : List Char} {bs : List UInt8} (h : Spells cs bs) :
    FileUri.toPathname? (String.ofList ("file://".toList ++ '/' :: cs)) = some ⟨47 :: bs⟩ := by
  have hslash : String.utf8EncodeChar '/' = [47] := by decide
  have hbytes : Text.bytes (String.ofList ("file://".toList ++ '/' :: cs)) =
      Text.bytes "file://" ++ 47 :: Text.bytes (String.ofList cs) := by
    rw [String.ofList_append, Text.bytes_append, String.ofList_toList, bytes_ofList_cons '/' cs,
      hslash, List.singleton_append]
  have hpre : (Text.bytes "file://").isPrefixOf
      (Text.bytes "file://" ++ 47 :: Text.bytes (String.ofList cs)) = true :=
    List.isPrefixOf_iff_prefix.mpr (List.prefix_append _ _)
  have hpart : pathPart? (String.ofList ("file://".toList ++ '/' :: cs)) =
      some (47 :: Text.bytes (String.ofList cs)) := by
    rw [pathPart?, hbytes]
    simp only [hpre, if_true, List.drop_left]
  have hread : FileUri.unescape? (47 :: Text.bytes (String.ofList cs)) = some (47 :: bs) := by
    rw [unescape?_cons (by decide), h.unescape?]
    rfl
  rw [FileUri.toPathname?, hpart]
  change (FileUri.unescape? (47 :: Text.bytes (String.ofList cs))).map Pathname.mk = _
  rw [hread]
  rfl

/-- The URI of an absolute path spells what comes after the root. -/
theorem toList_ofAbsolute {p : Pathname} (hp : p.isAbsolute = true) :
    ∃ bs, p = ⟨47 :: bs⟩ ∧
      (ofAbsolute p).toList = "file://".toList ++ '/' :: bs.flatMap escaped := by
  rw [Pathname.isAbsolute, beq_iff_eq, List.head?_eq_some_iff] at hp
  obtain ⟨bs, hbs⟩ := hp
  have hslash : escaped 47 = ['/'] := by decide
  refine ⟨bs, congrArg Pathname.mk hbs, ?_⟩
  rw [ofAbsolute, String.toList_append, hbs, List.flatMap_cons, hslash,
    String.toList_ofList (l := ['/'] ++ bs.flatMap escaped), List.singleton_append]

theorem toPathname?_ofAbsolute {p : Pathname} (hp : p.isAbsolute = true) :
    toPathname? (ofAbsolute p) = some p := by
  obtain ⟨bs, rfl, hchars⟩ := toList_ofAbsolute hp
  have hread := (spells_escaped bs).toPathname?
  rw [← hchars, String.ofList_toList] at hread
  exact hread

end FileUri

namespace Locator

open FileUri

theorem escapeSeparators_cons {c : Char} (hc : c ≠ '!') (cs : List Char) :
    escapeSeparators (c :: cs) = c :: escapeSeparators cs := by
  rw [escapeSeparators, if_neg (fun h => hc h.1)]

theorem escapeSeparators_append {cs : List Char} (hcs : '!' ∉ cs) (ds : List Char) :
    escapeSeparators (cs ++ ds) = cs ++ escapeSeparators ds := by
  induction cs with
  | nil => rfl
  | cons c cs ih =>
    rw [List.mem_cons, not_or] at hcs
    rw [List.cons_append, escapeSeparators_cons (Ne.symm hcs.1), ih hcs.2, List.cons_append]

/-- Escaped separators stand for the same bytes. -/
theorem spells_escapeSeparators {cs : List Char} {bs : List UInt8} (h : Spells cs bs) :
    Spells (escapeSeparators cs) bs := by
  induction h with
  | nil => exact .nil
  | @plain b cs bs hb hne _ ih =>
    rw [escapeSeparators]
    split
    · next hmark =>
      have henc := utf8EncodeChar_of_lt hb
      rw [hmark.1] at henc
      have hone : String.utf8EncodeChar '!' = [33] := by decide
      rw [hone, List.cons.injEq] at henc
      obtain ⟨rfl, -⟩ := henc
      exact .number 33 ih
    · exact .plain hb hne ih
  | number b _ ih =>
    have hlt := b.toNat_lt
    have hhigh : b.toNat / 16 < 16 := by omega
    have hlow : b.toNat % 16 < 16 := Nat.mod_lt _ (by omega)
    rw [escapeSeparators_cons (by decide), escapeSeparators_cons (digit_ne_mark hhigh),
      escapeSeparators_cons (digit_ne_mark hlow)]
    exact .number b ih

theorem head?_escapeSeparators {c : Char} {cs : List Char}
    (h : (escapeSeparators cs).head? = some c) : cs.head? = some c ∨ c = '%' := by
  cases cs with
  | nil => cases h
  | cons d cs =>
    rw [escapeSeparators] at h
    split at h
    · cases h
      exact Or.inr rfl
    · cases h
      exact Or.inl rfl

/-- The first separator that is not escaped is the one put at the end. -/
theorem beforeSeparator_escapeSeparators (cs : List Char) :
    beforeSeparator (escapeSeparators cs ++ ['!', '/']) = escapeSeparators cs := by
  have hpass : ∀ (c : Char) (ds : List Char), ¬(c = '!' ∧ ds.head? = some '/') →
      beforeSeparator (c :: ds) = c :: beforeSeparator ds := by
    intro c ds h
    rw [beforeSeparator, if_neg h]
  induction cs with
  | nil => rfl
  | cons c cs ih =>
    rw [escapeSeparators]
    split
    · rw [List.cons_append, List.cons_append, List.cons_append, hpass _ _ (by simp),
        hpass _ _ (by simp), hpass _ _ (by simp), ih]
    · next hne =>
      rw [List.cons_append, hpass, ih]
      rintro ⟨hmark, hslash⟩
      cases hesc : escapeSeparators cs with
      | nil =>
        rw [hesc] at hslash
        cases hslash
      | cons d ds =>
        rw [hesc] at hslash
        have hd : d = '/' := Option.some.inj hslash
        have hhead : (escapeSeparators cs).head? = some '/' := by rw [hesc, hd]; rfl
        rcases head?_escapeSeparators hhead with hhead | hhead
        · exact hne ⟨hmark, hhead⟩
        · cases hhead

/-- No separator comes before the first one. -/
theorem length_beforeSeparator_le (before after : List Char) :
    (beforeSeparator (before ++ '!' :: '/' :: after)).length ≤ before.length := by
  induction before with
  | nil =>
    have hnil : beforeSeparator ([] ++ '!' :: '/' :: after) = [] := by
      rw [List.nil_append, beforeSeparator, if_pos ⟨rfl, rfl⟩]
    exact Nat.le_of_eq (congrArg List.length hnil)
  | cons c before ih =>
    rw [List.cons_append, beforeSeparator]
    split
    · exact Nat.zero_le _
    · rw [List.length_cons, List.length_cons]
      exact Nat.succ_le_succ ih

/-- The separator at the end is the only one. -/
theorem separator_unique {cs before after : List Char}
    (h : escapeSeparators cs ++ ['!', '/'] = before ++ '!' :: '/' :: after) :
    before = escapeSeparators cs ∧ after = [] := by
  have hle := length_beforeSeparator_le before after
  rw [← h, beforeSeparator_escapeSeparators] at hle
  have hlength := congrArg List.length h
  simp only [List.length_append, List.length_cons, List.length_nil] at hlength
  have hafter : after = [] := List.eq_nil_of_length_eq_zero (by omega)
  subst hafter
  exact ⟨(List.append_cancel_right h).symm, rfl⟩

/-- An absolute path is read back from its URI, though separators were escaped in it. -/
theorem toPathname?_escapeSeparators {p : Pathname} (hp : p.isAbsolute = true) :
    toPathname? (String.ofList (escapeSeparators (ofAbsolute p).toList)) = some p := by
  obtain ⟨bs, rfl, hchars⟩ := toList_ofAbsolute hp
  have hmark : '!' ∉ "file://".toList := by decide
  rw [hchars, escapeSeparators_append hmark, escapeSeparators_cons (by decide)]
  exact (spells_escapeSeparators (spells_escaped bs)).toPathname?

theorem ascii_escapeSeparators {p : Pathname} (hp : p.isAbsolute = true) :
    ∀ c ∈ escapeSeparators (ofAbsolute p).toList, c.toNat < 128 := by
  obtain ⟨bs, rfl, hchars⟩ := toList_ofAbsolute hp
  have hmark : '!' ∉ "file://".toList := by decide
  have hfile : ∀ c ∈ "file://".toList, c.toNat < 128 := Text.ascii_of_all (by decide)
  rw [hchars, escapeSeparators_append hmark, escapeSeparators_cons (by decide)]
  intro c hc
  rcases List.mem_append.mp hc with hc | hc
  · exact hfile c hc
  · rcases List.mem_cons.mp hc with rfl | hc
    · decide
    · exact (spells_escapeSeparators (spells_escaped bs)).ascii c hc

/-- The scheme of a text ends at its first colon. -/
theorem parse_append {scheme : String} (hcolon : ':' ∉ scheme.toList) (rest : String) :
    parse (scheme ++ ":" ++ rest) =
      if isScheme scheme then .ok ⟨scheme, rest⟩
      else .error (.invalidLocator (scheme ++ ":" ++ rest)) := by
  have htext : (scheme ++ ":" ++ rest).toList = scheme.toList ++ ':' :: rest.toList := by
    simp
  have hbefore : ∀ c ∈ scheme.toList, decide (c ≠ ':') = true := by
    intro c hc
    rw [decide_eq_true_eq]
    rintro rfl
    exact hcolon hc
  have htake : (scheme.toList ++ ':' :: rest.toList).takeWhile (· ≠ ':') = scheme.toList := by
    rw [List.takeWhile_append_of_pos hbefore]
    simp
  have hdrop : (scheme.toList ++ ':' :: rest.toList).dropWhile (· ≠ ':') =
      ':' :: rest.toList := by
    rw [List.dropWhile_append_of_pos hbefore]
    simp
  unfold parse
  simp only [htext, htake, hdrop, String.ofList_toList]

/-- Characters of a scheme are ASCII, and neither a colon nor an exclamation mark. -/
theorem isSchemeChar_bounds {c : Char} (hc : isSchemeChar c = true) :
    c.toNat < 128 ∧ c ≠ ':' ∧ c ≠ '!' := by
  have hlt : c.toNat < 128 := by
    unfold isSchemeChar at hc
    delta Char.isAlphanum Char.isAlpha Char.isUpper Char.isLower Char.isDigit at hc
    simp only [Bool.or_eq_true, Bool.and_eq_true, decide_eq_true_eq, ge_iff_le,
      UInt32.le_iff_toNat_le] at hc
    change c.val.toNat < 128
    rcases hc with (((((⟨-, hc⟩ | ⟨-, hc⟩) | ⟨-, hc⟩) | rfl) | rfl) | rfl)
    all_goals first | decide | exact Nat.lt_of_le_of_lt hc (by decide)
  refine ⟨hlt, ?_, ?_⟩
  · rintro rfl
    exact absurd hc (by decide)
  · rintro rfl
    exact absurd hc (by decide)

theorem isSchemeChar_of_mem {scheme : String} (hscheme : isScheme scheme = true) :
    ∀ c ∈ scheme.toList, isSchemeChar c = true := by
  intro c hc
  unfold isScheme at hscheme
  split at hscheme
  · cases hscheme
  · next d ds hchars =>
    rw [hchars] at hc
    rw [Bool.and_eq_true, List.all_eq_true] at hscheme
    rcases List.mem_cons.mp hc with rfl | hc
    · rw [isSchemeChar, Char.isAlphanum, hscheme.1]
      rfl
    · exact hscheme.2 c hc

/-- A locator is read back from its text. -/
theorem parse_text {l : Locator} (hscheme : isScheme l.scheme = true) : parse l.text = .ok l := by
  have hcolon : ':' ∉ l.scheme.toList := fun hc =>
    (isSchemeChar_bounds (isSchemeChar_of_mem hscheme _ hc)).2.1 rfl
  rw [text, parse_append hcolon, if_pos hscheme]

theorem forArchive_eq {scheme : String} (hcolon : ':' ∉ scheme.toList) (cwd p : Pathname) :
    forArchive scheme cwd p =
      let rest := String.ofList (escapeSeparators (ofPathname cwd p).toList ++ ['!', '/'])
      if isScheme scheme then .ok ⟨scheme, rest⟩
      else .error (.invalidLocator (scheme ++ ":" ++ rest)) := by
  have hrest : scheme ++ ":" ++ String.ofList (escapeSeparators (ofPathname cwd p).toList) ++
      "!/" = scheme ++ ":" ++
        String.ofList (escapeSeparators (ofPathname cwd p).toList ++ ['!', '/']) := by
    rw [String.ofList_append, String.append_assoc]
  unfold forArchive
  simp only [hrest]
  exact parse_append hcolon _

theorem isAbsolute_join {cwd : Pathname} (hcwd : cwd.isAbsolute = true) (p : Pathname) :
    (cwd.join p).isAbsolute = true := by
  rw [Pathname.join]
  split
  · next hp => exact hp
  · obtain ⟨bs, hbs⟩ := List.head?_eq_some_iff.mp (beq_iff_eq.mp hcwd)
    split
    · rw [Pathname.isAbsolute, hbs]
      rfl
    · rw [Pathname.isAbsolute, hbs]
      rfl

theorem join_of_isAbsolute {p : Pathname} (hp : p.isAbsolute = true) (cwd : Pathname) :
    cwd.join p = p := by
  rw [Pathname.join, if_pos hp]

theorem ofPathname_eq (cwd p : Pathname) : ofPathname cwd p = ofAbsolute (cwd.join p) := by
  rw [ofPathname]
  split
  · next hp => rw [join_of_isAbsolute hp]
  · rfl

/-- The file of a locator that ends in its only separator. -/
theorem archiveFile_eq {l : Locator} {p : Pathname} (hp : p.isAbsolute = true)
    (hrest : l.rest = String.ofList (escapeSeparators (ofAbsolute p).toList ++ ['!', '/'])) :
    l.archiveFile = .ok p := by
  rw [archiveFile, hrest, String.toList_ofList, beforeSeparator_escapeSeparators,
    toPathname?_escapeSeparators hp]

/-- The locator of the archive at a path names the path. -/
theorem archiveFile_forArchive {scheme : String} {cwd p : Pathname} {l : Locator}
    (hcwd : cwd.isAbsolute = true) (h : forArchive scheme cwd p = .ok l)
    (hscheme : ':' ∉ scheme.toList) :
    l.scheme = scheme ∧ l.archiveFile = .ok (if p.isAbsolute then p else cwd.join p) := by
  have hjoin : (if p.isAbsolute then p else cwd.join p) = cwd.join p := by
    split
    · next hp => rw [join_of_isAbsolute hp]
    · rfl
  rw [forArchive_eq hscheme, ofPathname_eq] at h
  simp only at h
  split at h
  · cases h
    rw [hjoin]
    exact ⟨rfl, archiveFile_eq (isAbsolute_join hcwd p) rfl⟩
  · cases h

theorem exists_forArchive (cwd p : Pathname) : ∃ l, forArchive jar cwd p = .ok l := by
  have hjar : isScheme jar = true := by decide
  have hcolon : ':' ∉ jar.toList := by decide
  rw [forArchive_eq hcolon, if_pos hjar]
  exact ⟨_, rfl⟩

/-- What a locator says of the archive at the absolute path `p`: its text is ASCII with the separator
of entries once, at its end, is read back as the locator, and its file is `p`. -/
structure Locates (scheme : String) (p : Pathname) (l : Locator) : Prop where
  scheme_eq : l.scheme = scheme
  ascii : ∀ c ∈ l.text.toList, c.toNat < 128
  separator : ∃ start, l.text.toList = start ++ ['!', '/'] ∧
    ∀ before after, l.text.toList = before ++ '!' :: '/' :: after → before = start ∧ after = []
  parse_text : parse l.text = .ok l
  archiveFile_eq : l.archiveFile = .ok p

theorem locates_of_absolute {scheme : String} (hscheme : isScheme scheme = true) {cwd p : Pathname}
    (habsolute : (cwd.join p).isAbsolute = true) :
    ∃ l, forArchive scheme cwd p = .ok l ∧ Locates scheme (cwd.join p) l := by
  have hchars : ∀ c ∈ scheme.toList, c.toNat < 128 ∧ c ≠ ':' ∧ c ≠ '!' := fun c hc =>
    isSchemeChar_bounds (isSchemeChar_of_mem hscheme c hc)
  have hcolon : ':' ∉ scheme.toList := fun hc => (hchars _ hc).2.1 rfl
  let uri := (ofAbsolute (cwd.join p)).toList
  let l : Locator := ⟨scheme, String.ofList (escapeSeparators uri ++ ['!', '/'])⟩
  have hl : forArchive scheme cwd p = .ok l := by
    rw [forArchive_eq hcolon, if_pos hscheme, ofPathname_eq]
  have htext : l.text.toList = scheme.toList ++ [':'] ++ escapeSeparators uri ++ ['!', '/'] := by
    simp [text, l]
  -- the scheme holds no separator, so the one at the end is that of the whole text
  have hwhole : scheme.toList ++ [':'] ++ escapeSeparators uri =
      escapeSeparators (scheme.toList ++ [':'] ++ uri) := by
    rw [escapeSeparators_append]
    simp only [List.mem_append, List.mem_singleton, not_or]
    exact ⟨fun hc => (hchars _ hc).2.2 rfl, by decide⟩
  have hascii : ∀ c ∈ l.text.toList, c.toNat < 128 := by
    rw [htext]
    intro c hc
    simp only [List.mem_append, List.mem_cons, List.not_mem_nil, or_false] at hc
    rcases hc with ((hc | rfl) | hc) | rfl | rfl
    · exact (hchars c hc).1
    · decide
    · exact ascii_escapeSeparators habsolute c hc
    · decide
    · decide
  have hseparator : ∀ before after, l.text.toList = before ++ '!' :: '/' :: after →
      before = scheme.toList ++ [':'] ++ escapeSeparators uri ∧ after = [] := by
    intro before after h
    rw [htext, hwhole] at h
    rw [hwhole]
    exact separator_unique h
  exact ⟨l, hl, rfl, hascii, ⟨_, htext, hseparator⟩, Locator.parse_text hscheme,
    Locator.archiveFile_eq habsolute rfl⟩

/-- Whatever the bytes of a path, the locator of the archive there is ASCII, holds the separator of
entries once, at its end, and names the path, taken from the working directory if it is relative; so
two absolute paths never have one locator. An absolute path is what its URI names. -/
theorem forArchive_locates {scheme : String} (hscheme : isScheme scheme = true) :
    (∀ cwd p, p.isAbsolute = true →
      ∃ l, forArchive scheme cwd p = .ok l ∧ Locates scheme p l) ∧
    (∀ cwd p, cwd.isAbsolute = true → p.isAbsolute = false →
      ∃ l, forArchive scheme cwd p = .ok l ∧ Locates scheme (cwd.join p) l) ∧
    (∀ cwd cwd' p q, p.isAbsolute = true → q.isAbsolute = true → p ≠ q →
      forArchive scheme cwd p ≠ forArchive scheme cwd' q) ∧
    ∀ cwd p, p.isAbsolute = true → toPathname? (ofPathname cwd p) = some p := by
  have hlocates : ∀ cwd p, p.isAbsolute = true →
      ∃ l, forArchive scheme cwd p = .ok l ∧ Locates scheme p l := by
    intro cwd p hp
    have hjoin := join_of_isAbsolute hp cwd
    have habsolute : (cwd.join p).isAbsolute = true := by rw [hjoin, hp]
    obtain ⟨l, hl, hlocates⟩ := locates_of_absolute hscheme habsolute
    rw [hjoin] at hlocates
    exact ⟨l, hl, hlocates⟩
  refine ⟨hlocates, ?_, ?_, ?_⟩
  · intro cwd p hcwd hp
    exact locates_of_absolute hscheme (isAbsolute_join hcwd p)
  · intro cwd cwd' p q hp hq hne heq
    obtain ⟨l, hl, hlp⟩ := hlocates cwd p hp
    obtain ⟨l', hl', hlq⟩ := hlocates cwd' q hq
    rw [hl, hl'] at heq
    cases heq
    have hfile := hlp.archiveFile_eq
    rw [hlq.archiveFile_eq] at hfile
    cases hfile
    exact hne rfl
  · intro cwd p hp
    rw [ofPathname_eq, join_of_isAbsolute hp, toPathname?_ofAbsolute hp]

/-- A path with separators of entries, marks at its end, a percent sign and bytes that are no text. -/
def markedPath : Pathname := ⟨[47, 33, 47, 37, 50, 49, 255, 47, 33, 33, 47, 32, 35, 33]⟩

theorem forArchive_locates_markedPath :
    isScheme "jar+x" = true ∧ markedPath.isAbsolute = true ∧
      forArchive "jar+x" ⟨[47]⟩ markedPath =
        .ok ⟨"jar+x", "file:///%21/%2521%FF/!%21/%20%23!!/"⟩ ∧
      archiveFile ⟨"jar+x", "file:///%21/%2521%FF/!%21/%20%23!!/"⟩ = .ok markedPath := by
  have hscheme : isScheme "jar+x" = true := by decide
  have habsolute : markedPath.isAbsolute = true := by decide
  obtain ⟨l, hl, hlocates⟩ := (forArchive_locates hscheme).1 ⟨[47]⟩ markedPath habsolute
  have hwritten : forArchive "jar+x" ⟨[47]⟩ markedPath =
      .ok ⟨"jar+x", "file:///%21/%2521%FF/!%21/%20%23!!/"⟩ := by rfl
  have hsame : l = ⟨"jar+x", "file:///%21/%2521%FF/!%21/%20%23!!/"⟩ := by
    rw [hwritten] at hl
    cases hl
    rfl
  exact ⟨hscheme, habsolute, hwritten, hsame ▸ hlocates.archiveFile_eq⟩

end Locator

end ZipMount
