import Mathlib
import ZipMount.Proofs.Archives.Create

namespace ZipMount

/-- What is written for members depends on the members alone. -/
theorem Tree.encode_congr {t t' : Tree} (h : t.members = t'.members) (method : Compression) :
    t.encode method = t'.encode method := by
  rw [encode, encode, drafts, drafts, h]

theorem Outline.foldl_add_congr {f g : List Filename → Option Content} {l : Listing}
    (h : ∀ r ∈ l, f r = g r) (o : Outline) : l.foldl (add f) o = l.foldl (add g) o := by
  induction l generalizing o with
  | nil => rfl
  | cons r l ih =>
    have hfirst : o.add f r = o.add g r := by rw [add, add, h r List.mem_cons_self]
    rw [List.foldl_cons, List.foldl_cons, hfirst]
    exact ih (fun s hs => h s (List.mem_cons_of_mem r hs)) _

namespace Archives

/-- An archive outside of a directory: making the directories it is to be in changes nothing of what
the directory holds. -/
def IsOutside (file : Pathname) (s : Path) (w : World) : Prop :=
  ∀ r, (∀ n ∈ r, IsSegment n) → s.holds (withParents file w) r = s.holds w r

variable {w w' : World} {s : Path} {file : Pathname} {time : Instant}

theorem isOutside_of_hasParent (hp : HasParent file w) : IsOutside file s w := by
  intro r _
  rw [withParents_of_hasParent hp]

/-- Where no directory has to be made, the archive is a new one. -/
theorem exists?_of_hasParent (hp : HasParent file w)
    (h : zipReproducibly s file time w = (.ok (), w')) :
    (Path.host file).exists? (withParents file w) = false := by
  obtain ⟨fs, v, hcreate, -⟩ := Action.bind_ok h
  unfold createReproducible at hcreate
  simp only at hcreate
  split at hcreate
  · obtain ⟨u, v', hthrow, -⟩ := Action.bind_ok hcreate
    cases hthrow
  · obtain ⟨inner, v', hcreate, -⟩ := Action.bind_ok hcreate
    rw [withParents_of_hasParent hp]
    exact exists?_of_createArchive hcreate

/-- What is written where nothing was can be read back at the path as it was given. -/
theorem read_of_write_absolute {h h' : Host} (hw : h.WellFormed)
    (hfree : (h.absolute file).hasZero = false → ∀ l k, ¬ h.At (h.absolute file) l k)
    {now : Instant} {data : ByteArray}
    (hwrite : h.write now (h.absolute file) data .replace = .ok h') : h'.read file = .ok data := by
  have hz := (Host.onPath_ok hwrite).1
  obtain ⟨-, hw', hcwd, l, hat⟩ := Host.at_of_write hw hwrite (hfree hz)
  have habsolute : h'.absolute file = h.absolute file := by
    rw [Host.absolute, Host.absolute, Host.cwd, Host.cwd, hcwd]
  rw [← habsolute] at hat
  rcases hat.of_absolute hw' with hat | ⟨-, hdirectory⟩
  · exact Host.read_of_at (Host.hasZero_of_absolute (hw.isSegment hw.working) hz) hat
  · cases hdirectory

/-- What is written for a directory: its listing, put into members one after the other, all of them
with one time. -/
theorem zipReproducibly_writes (hw : w.WellFormed) (hd : s.holds w [] = some .directory)
    (ho : IsOutside file s w) (hnone : (Path.host file).exists? (withParents file w) = false)
    (h : zipReproducibly s file time w = (.ok (), w')) :
    ∃ (l : Listing) (t : Tree) (data : ByteArray), l.Sorted ∧
      (∀ r, r ∈ l ↔ (∀ n ∈ r, IsSegment n) ∧ (s.holds w r).isSome) ∧
        t.members = (l.foldl (Outline.add (s.holds w)) []).map
            (fun kc => (kc.1, ⟨kc.2, .all time⟩)) ∧
          t.encode .deflated = .ok data ∧ w'.host.read file = .ok data := by
  unfold zipReproducibly at h
  obtain ⟨fs, v, hcreate, h⟩ := Action.bind_ok h
  obtain ⟨hwp, n, id, m, rfl, hmounted⟩ := createReproducible_new hw hnone hcreate
  obtain ⟨v', hcopy, hclose⟩ := FileSystem.andThen_ok h
  have hdp : s.holds (withParents file w) [] = some .directory := by
    rw [ho [] fun n hn => (List.not_mem_nil hn).elim]
    exact hd
  have hoff := hmounted.isOff hdp
  have hcopy := Action.get_bind_ok hcopy
  have hdirectory : s.isDirectory v = true := by
    apply Path.content?_directory.mp
    exact Path.content?_of_holds_nil ((hmounted.sameBut.holds_eq hoff []).trans hdp)
  have hroot : (FileSystem.stamping n (.archive id) (some time)).path "/" =
      .member id ⟨[47]⟩ := by
    have hslash : Pathname.ofString "/" = ⟨[47]⟩ := by decide
    change Path.member id (Pathname.join ⟨[47]⟩ (.ofString "/")) = _
    rw [hslash]
    rfl
  rw [hdirectory, hroot] at hcopy
  obtain ⟨l, hsorted, hmem, hfilled⟩ := copyTree_fills (hmounted.wellFormed hwp) hmounted.ready
    hmounted.sameBut hoff hdp hcopy
  obtain ⟨t, data, now, hmembers, hencode, hwrite⟩ :=
    FileSystem.close_writes hmounted.ready hmounted.backing hfilled hclose
  have hsame : ∀ r ∈ l, s.holds (withParents file w) r = s.holds w r :=
    fun r hr => ho r ((hmem r).mp hr).1
  rw [hmounted.method] at hencode
  rw [Outline.foldl_add_congr hsame] at hmembers
  refine ⟨l, t, data, hsorted, ?_, hmembers, hencode,
    read_of_write_absolute hwp.host hmounted.free hwrite⟩
  intro r
  rw [hmem r]
  constructor
  · rintro ⟨hr, hsome⟩
    rw [ho r hr] at hsome
    exact ⟨hr, hsome⟩
  · rintro ⟨hr, hsome⟩
    rw [← ho r hr] at hsome
    exact ⟨hr, hsome⟩

/-- Two directories that hold the same give archives that are the same to the byte. -/
theorem zipReproducibly_bytes_eq {w₁ w₂ w₁' w₂' : World} {s₁ s₂ : Path} {a₁ a₂ : Pathname}
    (hw₁ : w₁.WellFormed) (hw₂ : w₂.WellFormed) (hd₁ : s₁.holds w₁ [] = some .directory)
    (hsame : ∀ r, (∀ n ∈ r, IsSegment n) → s₁.holds w₁ r = s₂.holds w₂ r)
    (ho₁ : IsOutside a₁ s₁ w₁) (ho₂ : IsOutside a₂ s₂ w₂)
    (hn₁ : (Path.host a₁).exists? (withParents a₁ w₁) = false)
    (hn₂ : (Path.host a₂).exists? (withParents a₂ w₂) = false)
    (h₁ : zipReproducibly s₁ a₁ time w₁ = (.ok (), w₁'))
    (h₂ : zipReproducibly s₂ a₂ time w₂ = (.ok (), w₂')) :
    ∃ data, w₁'.host.read a₁ = .ok data ∧ w₂'.host.read a₂ = .ok data := by
  have hd₂ : s₂.holds w₂ [] = some .directory := by
    rw [← hsame [] fun n hn => (List.not_mem_nil hn).elim]
    exact hd₁
  obtain ⟨l₁, t₁, data₁, hsorted₁, hmem₁, hmembers₁, hencode₁, hread₁⟩ :=
    zipReproducibly_writes hw₁ hd₁ ho₁ hn₁ h₁
  obtain ⟨l₂, t₂, data₂, hsorted₂, hmem₂, hmembers₂, hencode₂, hread₂⟩ :=
    zipReproducibly_writes hw₂ hd₂ ho₂ hn₂ h₂
  have hlisting : l₁ = l₂ := by
    apply Listing.eq_of_mem_iff hsorted₁ hsorted₂
    intro r
    rw [hmem₁, hmem₂]
    constructor
    · rintro ⟨hr, hsome⟩
      rw [hsame r hr] at hsome
      exact ⟨hr, hsome⟩
    · rintro ⟨hr, hsome⟩
      rw [← hsame r hr] at hsome
      exact ⟨hr, hsome⟩
  subst hlisting
  have hmembers : t₁.members = t₂.members := by
    have hholds : ∀ r ∈ l₁, s₁.holds w₁ r = s₂.holds w₂ r :=
      fun r hr => hsame r ((hmem₁ r).mp hr).1
    rw [hmembers₁, hmembers₂, Outline.foldl_add_congr hholds]
  have hdata : data₁ = data₂ := by
    rw [Tree.encode_congr hmembers, hencode₂] at hencode₁
    exact (Except.ok.inj hencode₁).symm
  exact ⟨data₁, hread₁, hdata ▸ hread₂⟩

/-- A host with a directory of two empty files, one put there before the other. -/
def pairHost (first second : Filename) (now : Instant) : Host :=
  (((Host.empty now).add now [[115]] (.directory now)).add now [[115], first]
    (.file .empty now)).add now [[115], second] (.file .empty now)

/-- A world with such a host, the clock of which stands still. -/
def pairWorld (first second : Filename) (now : Instant) : World :=
  .start (pairHost first second now) (fun _ => now) ""

/-- Creating an archive of that directory. -/
def pairRun (archive : String) (w : World) : Except Failure Unit × World :=
  zipReproducibly (.host (.ofString "/s")) (.ofString archive) (.ofSeconds 1270808130) w

theorem kind?_pairHost (f g : Filename) (now : Instant) (l : Location) :
    (pairHost f g now).kind? l =
      if l = [[115], g] then some (.file .empty)
      else if l = [[115], f] then some (.file .empty)
      else if l = [[115]] then some .directory
      else if l = [] then some .directory else none := by
  rw [pairHost, Host.kind?_add _ _ (by simp), Host.kind?_add _ _ (by simp),
    Host.kind?_add _ _ (by simp)]
  have hempty : (Host.empty now).kind? l = if l = [] then some .directory else none := by
    by_cases hl : l = []
    · rw [if_pos hl, hl]
      rfl
    · rw [if_neg hl, Host.kind?_of_ne_nil hl]
      rfl
  rw [hempty]
  rfl

theorem pairHost_wellFormed {f g : Filename} (hf : IsSegment f) (hg : IsSegment g) (hne : g ≠ f)
    (now : Instant) : (pairHost f g now).WellFormed := by
  have hs : IsSegment [115] := by decide
  let h₁ := (Host.empty now).add now ([] ++ [[115]]) (.directory now)
  have hw₁ : h₁.WellFormed := (Host.wellFormed_empty now).add now rfl hs rfl _
  have hfree₁ : ∀ n : Filename, h₁.kind? ([[115]] ++ [n]) = none := by
    intro n
    rw [Host.kind?_add _ _ (by simp), if_neg (by simp), Host.kind?_of_ne_nil (by simp)]
    rfl
  let h₂ := h₁.add now ([[115]] ++ [f]) (.file .empty now)
  have hw₂ : h₂.WellFormed := hw₁.add now rfl hf (hfree₁ f) _
  have hdir₂ : h₂.kind? [[115]] = some .directory := by
    rw [Host.kind?_add _ _ (by simp), if_neg (by simp)]
    rfl
  have hfree₂ : h₂.kind? ([[115]] ++ [g]) = none := by
    rw [Host.kind?_add _ _ (by simp), if_neg (by simpa using hne)]
    exact hfree₁ g
  exact hw₂.add now hdir₂ hg hfree₂ _

theorem pairWorld_wellFormed {f g : Filename} (hf : IsSegment f) (hg : IsSegment g) (hne : g ≠ f)
    (now : Instant) : (pairWorld f g now).WellFormed :=
  ⟨pairHost_wellFormed hf hg hne now, fun _ h => (List.not_mem_nil h).elim⟩

set_option maxRecDepth 30000 in
theorem pairRun_first : (pairRun "/a.zip" (pairWorld [102] [103] .epoch)).1 = .ok () := by
  cbv

set_option maxRecDepth 30000 in
theorem pairRun_second : (pairRun "/b.zip" (pairWorld [103] [102] (.ofSeconds 7))).1 = .ok () := by
  cbv

theorem zipReproducibly_bytes_eq_pairWorld :
    ∃ data, (pairRun "/a.zip" (pairWorld [102] [103] .epoch)).2.host.read (.ofString "/a.zip") =
        .ok data ∧
      (pairRun "/b.zip" (pairWorld [103] [102] (.ofSeconds 7))).2.host.read (.ofString "/b.zip") =
        .ok data := by
  have hw₁ : (pairWorld [102] [103] .epoch).WellFormed :=
    pairWorld_wellFormed (by decide) (by decide) (by decide) _
  have hw₂ : (pairWorld [103] [102] (.ofSeconds 7)).WellFormed :=
    pairWorld_wellFormed (by decide) (by decide) (by decide) _
  have hd : (Path.host (.ofString "/s")).holds (pairWorld [102] [103] .epoch) [] =
      some .directory := by decide +kernel
  have hsame : ∀ r, (∀ n ∈ r, IsSegment n) →
      (Path.host (.ofString "/s")).holds (pairWorld [102] [103] .epoch) r =
        (Path.host (.ofString "/s")).holds (pairWorld [103] [102] (.ofSeconds 7)) r := by
    intro r _
    have hkind : ∀ l, (pairHost [102] [103] .epoch).kind? l =
        (pairHost [103] [102] (.ofSeconds 7)).kind? l := by
      intro l
      rw [kind?_pairHost, kind?_pairHost]
      by_cases hf : l = [[115], [102]]
      · subst hf
        rfl
      · rw [if_neg hf, if_neg hf]
    have hcwd : (pairWorld [102] [103] .epoch).host.workingDirectory =
        (pairWorld [103] [102] (.ofSeconds 7)).host.workingDirectory := rfl
    exact Path.holds_of_kind? hkind hcwd _ r
  have hp₁ : HasParent (.ofString "/a.zip") (pairWorld [102] [103] .epoch) := by
    intro above habove _
    cases habove
    decide +kernel
  have hp₂ : HasParent (.ofString "/b.zip") (pairWorld [103] [102] (.ofSeconds 7)) := by
    intro above habove _
    cases habove
    decide +kernel
  have hsplit : ∀ r : Except Failure Unit × World, r.1 = .ok () → r = (.ok (), r.2) := by
    rintro ⟨_, w⟩ rfl
    rfl
  have h₁ := hsplit _ pairRun_first
  have h₂ := hsplit _ pairRun_second
  have hn₁ := exists?_of_hasParent hp₁ h₁
  have hn₂ := exists?_of_hasParent hp₂ h₂
  exact zipReproducibly_bytes_eq hw₁ hw₂ hd hsame (isOutside_of_hasParent hp₁)
    (isOutside_of_hasParent hp₂) hn₁ hn₂ h₁ h₂

end Archives

end ZipMount
