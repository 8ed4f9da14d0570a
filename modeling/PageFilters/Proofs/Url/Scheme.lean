import PageFilters.Filter.Eligibility
import PageFilters.Proofs.Text.Case
import PageFilters.Url.Parse

/-!
The scheme of a URL that is read. By the standard it is the one that the text names, once all that
does not count has been left out of the text; a text that names none takes the scheme of its base.
So inline data is told by the text as it is read, not as it stands.
-/

namespace PageFilters

namespace Url

def named? (text : String) : Option String :=
  (scheme? (relevant text)).map Prod.fst

/-- What the URL standard says of schemes. A text that is a URL by itself names one, in what counts
of it. A text that is joined to a base has the scheme that it names, and that of the base if it
names none. -/
structure SchemesByStandard [UrlLibrary] : Prop where
  parse : ∀ {text : String} {u : Url}, parse text = .ok u → named? text = some u.scheme
  join : ∀ {base u : Url} {text : String}, UrlLibrary.join base text = .ok u →
    u.scheme = (named? text).getD base.scheme

end Url

namespace AsciiUrl

variable {scheme : String} {cs : List Char} {base u : AsciiUrl}

@[simp] theorem scheme_withEnding (kind : SchemeKind) (cs : List Char) (u : AsciiUrl) :
    (withEnding kind cs u).scheme = u.scheme := by
  unfold withEnding
  simp only
  split
  · rfl
  · rfl

@[simp] theorem scheme_withFragment (cs : List Char) (base : AsciiUrl) :
    (withFragment cs base).scheme = base.scheme :=
  rfl

@[simp] theorem scheme_withPath (start : List String) (cs : List Char) (base : AsciiUrl) :
    (withPath start cs base).scheme = base.scheme := by
  simp [withPath]

theorem scheme_afterSlashes (found : afterSlashes scheme cs = .ok u) : u.scheme = scheme := by
  unfold afterSlashes at found
  cases split : readAuthority scheme cs with
  | error cause => simp [split, bind, Except.bind] at found
  | ok read =>
    simp only [split, bind, Except.bind, pure, Except.pure, Except.ok.injEq] at found
    rw [← found, scheme_withEnding]

theorem scheme_relative (found : relative base cs = .ok u) : u.scheme = base.scheme := by
  unfold relative at found
  split at found
  · cases found
    rfl
  · cases found
    rfl
  · cases found
    rw [scheme_withEnding]
  · split at found
    · split at found
      · exact scheme_afterSlashes found
      · split at found
        · exact scheme_afterSlashes found
        · cases found
          rw [scheme_withPath]
    · cases found
      rw [scheme_withPath]

theorem scheme_onward {base : Option AsciiUrl} (files : ∀ b, base = some b → b.scheme = "file")
    {c : Char} (found : file.onward base c cs = .ok u) : u.scheme = "file" := by
  unfold file.onward at found
  simp only at found
  split at found
  · cases found
    simp [localFile]
  · split at found
    · cases found
      simp [localFile]
    · next b =>
      have named := files b rfl
      split at found
      · cases found
        rw [scheme_withFragment, named]
      · split at found
        · cases found
          rw [scheme_withEnding, named]
        · split at found
          · cases found
            simp [localFile]
          · cases found
            rw [scheme_withPath, named]

theorem scheme_file {base : Option AsciiUrl} (files : ∀ b, base = some b → b.scheme = "file")
    (found : file base cs = .ok u) : u.scheme = "file" := by
  unfold file at found
  split at found
  · split at found
    · next rest _ =>
      cases split : fileHost rest with
      | error cause => simp [split, bind, Except.bind] at found
      | ok read =>
        simp only [split, bind, Except.bind, pure, Except.pure, Except.ok.injEq] at found
        rw [← found, scheme_withEnding]
        rfl
    · exact scheme_onward files found
  · exact scheme_onward files found
  · split at found
    · cases found
      rfl
    · next b =>
      cases found
      exact files b rfl

theorem of_file (isFile : SchemeKind.of scheme = .file) : scheme = "file" := by
  unfold SchemeKind.of at isFile
  split at isFile
  · next same => simpa using same
  · split at isFile <;> cases isFile

theorem scheme_afterScheme {base : Option AsciiUrl} (found : afterScheme base scheme cs = .ok u) :
    u.scheme = scheme := by
  have same : ∀ b, base.filter (fun b => b.scheme == scheme) = some b → b.scheme = scheme := by
    intro b kept
    simpa using (Option.filter_eq_some_iff.mp kept).2
  unfold afterScheme at found
  simp only at found
  split at found
  · next isFile =>
    have name := of_file isFile
    rw [scheme_file (fun b kept => (same b kept).trans name) found, name]
  · split at found
    · next b kept =>
      split at found
      · rw [scheme_relative found, same b kept]
      · exact scheme_afterSlashes found
    · exact scheme_afterSlashes found
  · split at found
    · exact scheme_afterSlashes found
    · cases found
      rw [scheme_withEnding]
    · cases found
      rw [scheme_withEnding]

theorem scheme_read {base : Option AsciiUrl} {text : String} (found : read base text = .ok u) :
    Url.named? text = some u.scheme ∨
      Url.named? text = none ∧ ∃ b, base = some b ∧ u.scheme = b.scheme := by
  unfold read at found
  rw [Url.named?]
  cases named : Url.scheme? (Url.relevant text) with
  | some start =>
    simp only [named] at found
    exact .inl (congrArg some (scheme_afterScheme found).symm)
  | none =>
    simp only [named] at found
    right
    split at found
    · cases found
    · next b =>
      refine ⟨rfl, b, rfl, ?_⟩
      split at found
      · cases found
        rfl
      · split at found
        · cases found
        · split at found
          · next isFile =>
            have name : b.scheme = "file" := by simpa using isFile
            rw [name]
            exact scheme_file (fun _ same => Option.some.inj same ▸ name) found
          · exact scheme_relative found

theorem schemesByStandard : @Url.SchemesByStandard asciiUrls := by
  constructor
  case parse =>
    intro text u found
    have read : AsciiUrl.read none text = .ok u := found
    rcases scheme_read read with named | ⟨_, b, none, _⟩
    · exact named
    · cases none
  case join =>
    intro base u text found
    have read : AsciiUrl.read (some base) text = .ok u := found
    rcases scheme_read read with named | ⟨unnamed, b, same, scheme⟩
    · rw [named]
      rfl
    · cases same
      rw [unnamed]
      exact scheme

end AsciiUrl

namespace Url

theorem scheme_resolve [UrlLibrary] (standard : SchemesByStandard) {base : Option Url}
    {text : String} {u : Url} (found : resolve? base text = some u) :
    named? text = some u.scheme ∨
      named? text = none ∧ ∃ b, base = some b ∧ u.scheme = b.scheme := by
  have read : ∀ {x : Except UrlError Url}, x.toOption = some u → x = .ok u := by
    intro x found
    cases x with
    | error cause => cases found
    | ok v => exact congrArg Except.ok (Option.some.inj found)
  unfold resolve? at found
  split at found
  · next b =>
    have scheme := standard.join (read found)
    cases named : named? text with
    | some word =>
      rw [named] at scheme
      exact .inl (congrArg some scheme.symm)
    | none =>
      rw [named] at scheme
      exact .inr ⟨rfl, b, rfl, scheme⟩
  · exact .inl (standard.parse (read found))

variable {scheme : String} {cs : List Char}

theorem isAlpha_of_toLower {c : Char} (letter : c.toLower.isAlpha = true) : c.isAlpha = true := by
  by_cases upper : c.isUpper = true
  · simp [Char.isAlpha, upper]
  · rwa [toLower_of_not_upper (by simpa using upper)] at letter

theorem toLower_eq_colon {c : Char} (colon : c.toLower = ':') : c = ':' := by
  by_cases upper : c.isUpper = true
  · have small := ascii_of_numbers (P := fun c => c.isUpper = true → c.toLower ≠ ':') (by decide) c
      (ascii_of_toLower (colon ▸ by decide)) upper
    exact absurd colon small
  · rwa [toLower_of_not_upper (by simpa using upper)] at colon

theorem scheme_spec {rest : List Char} (named : scheme? cs = some (scheme, rest)) :
    ∃ word, cs = word ++ ':' :: rest ∧ scheme = foldCase (String.ofList word) := by
  unfold scheme? at named
  simp only at named
  split at named
  · next letter others rest' whole colon =>
    split at named
    · cases named
      refine ⟨_, ?_, rfl⟩
      rw [← colon]
      exact (List.prefix_iff_eq_append.mp (List.takeWhile_prefix _)).symm
    · cases named
  · cases named

theorem scheme_letters {word : List Char} (letters : ∀ c ∈ word, c.isAlpha = true)
    (nonempty : word ≠ []) (rest : List Char) :
    scheme? (word ++ ':' :: rest) = some (foldCase (String.ofList word), rest) := by
  have taken : (word ++ ':' :: rest).takeWhile
      (fun c => c.isAlphanum || c == '+' || c == '-' || c == '.') = word := by
    rw [List.takeWhile_append_of_pos fun c member => by simp [Char.isAlphanum, letters c member],
      List.takeWhile_cons_of_neg (by decide), List.append_nil]
  rw [scheme?]
  simp only [taken, List.drop_left]
  cases word with
  | nil => exact absurd rfl nonempty
  | cons letter others => simp only [letters letter (List.mem_cons_self ..), if_true]

theorem scheme_data_iff (cs : List Char) :
    (scheme? cs).map Prod.fst = some "data" ↔ startsIgnoreCase "data:".toList cs = true := by
  rw [startsIgnoreCase_iff]
  constructor
  · intro named
    obtain ⟨⟨scheme, rest⟩, found, isData⟩ := Option.map_eq_some_iff.mp named
    obtain ⟨word, rfl, rfl⟩ := scheme_spec found
    refine ⟨word ++ [':'], rest, by simp, ?_⟩
    have small := congrArg String.toList isData
    rw [toList_foldCase, String.toList_ofList] at small
    rw [List.map_append, small]
    decide
  · rintro ⟨start, rest, rfl, small⟩
    obtain ⟨word, mark, rfl, isData, marked⟩ := List.map_eq_append_iff.mp
      (small.trans (show "data:".toList = "data".toList ++ [':'] from rfl))
    obtain ⟨colon, rfl, isColon⟩ := List.map_eq_singleton_iff.mp marked
    cases toLower_eq_colon isColon
    have letters : ∀ c ∈ word, c.isAlpha = true := by
      have small : ∀ c ∈ "data".toList, c.isAlpha = true := by simp
      rw [← isData] at small
      exact fun c member => isAlpha_of_toLower (small _ (List.mem_map_of_mem member))
    have named : word ≠ [] := by
      rintro rfl
      cases isData
    have folded : foldCase (String.ofList word) = "data" := by
      apply String.toList_injective
      rw [toList_foldCase, String.toList_ofList, isData]
    rw [List.append_assoc, List.singleton_append, scheme_letters letters named, Option.map_some,
      folded]

end Url

namespace Element

/-- The source of an eligible image does not begin with `data:`, and it resolves. It means inline
data all the same if it begins so once what does not count is left out, or if the page itself is
inline data and the source names no scheme. -/
theorem eligibleSrc_data_iff [UrlLibrary] (standard : Url.SchemesByStandard) {e : Element}
    {base : Option Url} {src : String} (eligible : e.eligibleSrc? base = some src) :
    isDataUrl src = false ∧ ∃ u, Url.resolve? base src = some u ∧
      (u.scheme = "data" ↔ startsIgnoreCase "data:".toList (Url.relevant src) = true ∨
        Url.scheme? (Url.relevant src) = none ∧ ∃ b, base = some b ∧ b.scheme = "data") := by
  obtain ⟨_, plain, resolves⟩ := eligibleSrc_spec eligible
  obtain ⟨u, found⟩ := Option.isSome_iff_exists.mp resolves
  refine ⟨plain, u, found, ?_⟩
  rw [← Url.scheme_data_iff, ← Url.named?]
  rcases Url.scheme_resolve standard found with named | ⟨unnamed, b, rfl, same⟩
  · have known : Url.scheme? (Url.relevant src) ≠ none := by
      intro none
      rw [Url.named?, none] at named
      cases named
    simp [named, known]
  · have none : Url.scheme? (Url.relevant src) = none := by simpa [Url.named?] using unnamed
    simp [unnamed, none, same]

theorem eligibleSrc_image :
    let e : Element := ⟨"img", [⟨"src", some "/a.jpg", .double⟩]⟩
    let page : AsciiUrl :=
      ⟨"http", some { host := .name "example.com" }, .segments [""], none, none⟩
    Url.SchemesByStandard ∧ e.eligibleSrc? (some page) = some "/a.jpg" ∧
      ∃ u, Url.resolve? (some page) "/a.jpg" = some u ∧ u.scheme ≠ "data" := by
  intro e page
  have eligible : e.eligibleSrc? (some page) = some "/a.jpg" := by decide +kernel
  obtain ⟨_, u, found, isData⟩ := eligibleSrc_data_iff AsciiUrl.schemesByStandard eligible
  refine ⟨AsciiUrl.schemesByStandard, eligible, u, found, fun data => ?_⟩
  rcases isData.mp data with begins | ⟨_, b, same, isData⟩
  · revert begins
    decide +kernel
  · cases same
    revert isData
    decide

theorem eligibleSrc_spaced_data :
    let e : Element := ⟨"img", [⟨"src", some " data:image/png;base64,AA", .double⟩]⟩
    let page : AsciiUrl :=
      ⟨"http", some { host := .name "example.com" }, .segments [""], none, none⟩
    e.eligibleSrc? (some page) = some " data:image/png;base64,AA" ∧
      (Url.resolve? (some page) " data:image/png;base64,AA").map Url.scheme = some "data" := by
  decide +kernel

end Element

end PageFilters
