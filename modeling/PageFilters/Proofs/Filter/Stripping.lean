import PageFilters.Proofs.Filter.Filtered
import PageFilters.Proofs.Markup.RoundTrip

/-!
Pages without legacy polyfills. A chain that only removes their scripts makes of a page what pruning
the complete page makes of it.
-/

namespace PageFilters

theorem Filtered.eq_pruneAll {kinds : List FilterKind} (only : kinds = [.legacyPolyfills])
    {ts ts' : List (Tree NodeData)} (filtered : Filtered kinds ts ts') :
    ts' = Tree.pruneAll NodeData.isPolyfillScript ts := by
  induction filtered with
  | nil => rw [Tree.pruneAll]
  | leaf plain _ ih =>
    rw [Tree.pruneAll, if_neg (by simp [NodeData.not_polyfill_of_plain plain]), Tree.pruneAll, ih]
  | gone _ polyfill _ ih =>
    rw [Tree.pruneAll, ih]
    exact (if_pos polyfill).symm
  | @kept e srcs e' inside inside' rest rest' stays dressed _ _ ihInside ihRest =>
    have plain : srcs = [] ∧ e' = e := by
      rcases dressed with plain | ⟨promotes, _⟩
      · exact plain
      · simp [only] at promotes
    have other : ¬ NodeData.isPolyfillScript (.element e) = true := by
      intro polyfill
      exact stays ⟨by simp [only], polyfill⟩
    rw [Tree.pruneAll, if_neg other, plain.1, plain.2, ihInside, ihRest]
    rfl

namespace Chain

section

variable [UrlLibrary]

theorem parse_of_accepted (c : Chain Builtin) {url : String} {documentUrl : Url}
    (accepted : Url.parse url = .ok documentUrl) (text : String) :
    ∃ opened : Chain Builtin, opened.kinds = c.kinds ∧
      c.parse url text = (.ok (parseWith observer text opened).1,
        (parseWith observer text opened).2) := by
  let opened : Chain Builtin :=
    { c.notify (.pageStarted documentUrl.text text.utf8ByteSize c.kinds) with
      documentUrl := some documentUrl, base := some documentUrl }
  refine ⟨opened, rfl, ?_⟩
  rw [Chain.parse, accepted]

/-- Removing scripts while a page is read comes to the same as pruning the complete page. -/
theorem tree_eq_prune (c : Chain Builtin) (only : c.kinds = [.legacyPolyfills])
    (url text : String) :
    (c.parse url text).1.map Document.tree =
      match Url.parse url with
      | .error cause => .error (.invalidUrl url cause)
      | .ok _ => .ok ((PageFilters.parse text).tree.prune NodeData.isPolyfillScript) := by
  cases parsed : Url.parse url with
  | error cause =>
    rw [Chain.parse, parsed]
    rfl
  | ok documentUrl =>
    obtain ⟨opened, kinds, read⟩ := c.parse_of_accepted parsed text
    obtain ⟨⟨after, filtered, grows⟩, _⟩ := parseWith_works opened text
    have pruned := filtered.eq_pruneAll (kinds.trans only)
    rw [read, parse_tree, Tree.prune, ← pruned]
    exact congrArg Except.ok grows.tree_eq

end

def exampleUrl (names : List String) : AsciiUrl where
  scheme := "https"
  authority := some { host := .name "a.example" }
  path := .segments names

theorem parse_example : Url.parse "https://a.example/" = .ok (exampleUrl [""]) := by
  have read : (Url.parse "https://a.example/").toOption = some (exampleUrl [""]) := by
    change (AsciiUrl.read none "https://a.example/").toOption = _
    decide +kernel
  cases parsed : Url.parse "https://a.example/" with
  | error cause => simp [parsed, Except.toOption] at read
  | ok documentUrl =>
    rw [parsed] at read
    exact congrArg Except.ok (Option.some.inj read)

theorem accepts_example : ∃ accepted, Url.parse "https://a.example/" = .ok accepted :=
  ⟨_, parse_example⟩

theorem tree_without_polyfill :
    let c := Chain.ofOptions Builtin.ofKind (({} : Options).enable .legacyPolyfills)
    c.kinds = [.legacyPolyfills] ∧
      (c.parse "https://a.example/" "<p>x<script src=/Polyfill.min.js>y</script><script>z").1.map
          Document.tree =
        .ok (.node .document [.node (.element ⟨"p", []⟩)
          [.node (.text "x") [], .node (.element ⟨"script", []⟩) [.node (.text "z") []]]]) := by
  intro c
  have only : c.kinds = [.legacyPolyfills] := rfl
  have told : (Outline.ofText "<p>x<script src=/Polyfill.min.js>y</script><script>z").trees =
      [.node (.element ⟨"p", []⟩) [.node (.text "x") [],
        .node (.element ⟨"script", [⟨"src", some "/Polyfill.min.js", .unquoted⟩]⟩)
          [.node (.text "y") []],
        .node (.element ⟨"script", []⟩) [.node (.text "z") []]]] := by cbv
  obtain ⟨documentUrl, accepted⟩ := accepts_example
  refine ⟨only, (tree_eq_prune c only _ _).trans ?_⟩
  rw [accepted, parse_tree, told]
  apply congrArg Except.ok
  cbv

end Chain

namespace Element.HasNames

variable {e : Element} {name : String}

theorem addMark (named : e.HasNames) (plain : IsName name) :
    (ImagePriority.addMark e name).HasNames := by
  unfold ImagePriority.addMark
  split
  · exact named
  · exact named.addAttribute plain "1" .double

theorem promote (named : e.HasNames) : (ImagePriority.promote e).HasNames := by
  have eager : (ImagePriority.loadEagerly e).HasNames := by
    unfold ImagePriority.loadEagerly
    split
    · exact named.eraseAttribute "loading"
    · exact named
  have first : (ImagePriority.fetchFirst (ImagePriority.loadEagerly e)).HasNames := by
    unfold ImagePriority.fetchFirst
    split
    · exact eager.setValue "fetchpriority" "high"
    · exact eager.addAttribute ⟨by decide, List.all_eq_true.mp rfl⟩ "high" .double
  have noDefer : IsName "data-pagespeed-no-defer" := ⟨by decide, List.all_eq_true.mp rfl⟩
  exact (first.addMark noDefer).addMark ⟨by decide, List.all_eq_true.mp rfl⟩

theorem promotes (named : e.HasNames) (n : Nat) : (ImagePriority.promote^[n] e).HasNames := by
  induction n generalizing e with
  | zero => exact named
  | succ n ih => exact ih named.promote

theorem preloading (src : String) : (Element.preloading src).HasNames := by
  have link : IsName "link" := ⟨by decide, List.all_eq_true.mp rfl⟩
  have names : ∀ name ∈ ["rel", "as", "href"], IsName name := by
    have known : ∀ name ∈ ["rel", "as", "href"],
        name ≠ "" ∧ name.toList.all isPlainChar = true := by decide
    intro name member
    exact ⟨(known name member).1, List.all_eq_true.mp (known name member).2⟩
  refine ⟨link, fun a member => names a.name ?_⟩
  exact List.mem_map_of_mem (f := AttributeOf.name) member

end Element.HasNames

theorem Legible.preloads {ts : List (Tree NodeData)} (legible : Legible ts) (srcs : List String) :
    Legible (preloads srcs ++ ts) := by
  induction srcs with
  | nil => exact legible
  | cons src srcs ih => exact .void (.preloading src) rfl ih

theorem Dressed.hasNames {kinds : List FilterKind} {e e' : Element} {srcs : List String}
    (dressed : Dressed kinds e srcs e') (named : e.HasNames) : e'.HasNames := by
  rcases dressed with ⟨_, rfl⟩ | ⟨_, _, n, rfl⟩
  · exact named
  · exact named.promotes n

theorem Filtered.nil_eq {kinds : List FilterKind} {ts : List (Tree NodeData)}
    (filtered : Filtered kinds [] ts) : ts = [] := by
  cases filtered
  rfl

theorem Filtered.rawText_eq {kinds : List FilterKind} {body : String} {ts : List (Tree NodeData)}
    (filtered : Filtered kinds (rawText body) ts) : ts = rawText body := by
  by_cases empty : body = ""
  · rw [rawText, if_pos empty] at filtered ⊢
    exact filtered.nil_eq
  · rw [rawText, if_neg empty] at filtered ⊢
    cases filtered with
    | leaf _ rest => rw [rest.nil_eq]

theorem Filtered.of_element {kinds : List FilterKind} {e : Element}
    {inside rest ts : List (Tree NodeData)}
    (filtered : Filtered kinds (.node (.element e) inside :: rest) ts) :
    Filtered kinds rest ts ∨ ∃ srcs e' inside' rest', Dressed kinds e srcs e' ∧
      Filtered kinds inside inside' ∧ Filtered kinds rest rest' ∧
      ts = preloads srcs ++ .node (.element e') inside' :: rest' := by
  cases filtered with
  | leaf plain _ => cases plain
  | gone _ _ later => exact .inl later
  | kept _ dressed below later => exact .inr ⟨_, _, _, _, dressed, below, later, rfl⟩

theorem Filtered.legible {kinds : List FilterKind} {ts ts' : List (Tree NodeData)}
    (filtered : Filtered kinds ts ts') (legible : Legible ts) : Legible ts' := by
  induction legible generalizing ts' with
  | nil =>
    rw [filtered.nil_eq]
    exact .nil
  | doctype doctype _ ih =>
    cases filtered with
    | leaf _ rest => exact .doctype doctype (ih rest)
  | comment comment _ ih =>
    cases filtered with
    | leaf _ rest => exact .comment comment (ih rest)
  | text some _ ih =>
    cases filtered with
    | leaf _ rest => exact .text some (ih rest)
  | void named void _ ih =>
    rcases filtered.of_element with rest | ⟨srcs, e', inside', rest', dressed, below, rest, rfl⟩
    · exact ih rest
    · rw [below.nil_eq]
      exact (Legible.void (dressed.hasNames named) (dressed.name ▸ void) (ih rest)).preloads srcs
  | @raw e body ts named raw absent _ ih =>
    rcases filtered.of_element with rest | ⟨srcs, e', inside', rest', dressed, below, rest, rfl⟩
    · exact ih rest
    · have notImage : e.keyword ≠ .img := by
        intro image
        rw [image] at raw
        cases raw
      obtain ⟨rfl, rfl⟩ := dressed.plain_of_keyword notImage
      rw [below.rawText_eq]
      exact .raw named raw absent (ih rest)
  | element named notVoid notRaw _ _ ihInside ihRest =>
    rcases filtered.of_element with rest | ⟨srcs, e', inside', rest', dressed, below, rest, rfl⟩
    · exact ihRest rest
    · have element := Legible.element (dressed.hasNames named) (dressed.name ▸ notVoid)
        (dressed.keyword ▸ notRaw) (ihInside below) (ihRest rest)
      exact element.preloads srcs

theorem hasPolyfillScript_preloads (srcs : List String) :
    hasPolyfillScript (preloads srcs) = false := by
  have link : Keyword.ofTag "link" = .link := by cbv
  induction srcs with
  | nil => rfl
  | cons src srcs ih =>
    have other : (Element.preloading src).isPolyfillScript = false :=
      Element.not_polyfill_of_keyword (by simp [Element.keyword, Element.preloading, link])
    rw [preloads] at ih
    rw [preloads, List.map_cons, hasPolyfillScript_cons, NodeData.isPolyfillScript, other, ih]
    rfl

theorem Filtered.clean {kinds : List FilterKind} (strips : .legacyPolyfills ∈ kinds)
    {ts ts' : List (Tree NodeData)} (filtered : Filtered kinds ts ts') :
    hasPolyfillScript ts' = false := by
  induction filtered with
  | nil => rfl
  | leaf plain _ ih =>
    rw [hasPolyfillScript_cons, NodeData.not_polyfill_of_plain plain, ih]
    rfl
  | gone _ _ _ ih => exact ih
  | @kept e srcs e' inside inside' rest rest' stays dressed _ _ ihInside ihRest =>
    have other : e.isPolyfillScript = false := by simpa [strips] using stays
    rw [hasPolyfillScript_append, hasPolyfillScript_preloads, hasPolyfillScript_cons,
      NodeData.isPolyfillScript, dressed.isPolyfillScript, other, ihInside, ihRest]
    rfl

namespace Chain

section

variable [UrlLibrary]

theorem trees_written_clean {c : Chain Builtin} (strips : .legacyPolyfills ∈ c.kinds)
    (text : String) :
    hasPolyfillScript (Outline.ofText (parseWith observer text c).1.html).trees = false := by
  obtain ⟨⟨after, filtered, grows⟩, _⟩ := parseWith_works c text
  have sound := Document.empty_wellFormed
  have written : (parseWith observer text c).1.html = Tree.htmlAll false after := by
    rw [grows.sound.html_eq, grows.forest_eq sound.toLinked sound.size_pos]
    rfl
  have legible := filtered.legible (legible_ofText text)
  rw [written, ← Tree.htmlAll_mergeTexts, trees_written legible.writable]
  exact hasPolyfillScript_rereadAll (hasPolyfillScript_mergeTexts (filtered.clean strips))

theorem run_of_accepted (c : Chain Builtin) {url : String} {documentUrl : Url}
    (accepted : Url.parse url = .ok documentUrl) (text : String) :
    ∃ opened : Chain Builtin, opened.kinds = c.kinds ∧
      c.run url text = (.ok (parseWith observer text opened).1.html,
        (parseWith observer text opened).2) := by
  obtain ⟨opened, kinds, read⟩ := c.parse_of_accepted accepted text
  refine ⟨opened, kinds, ?_⟩
  rw [run, read]
  rfl

/-- The markup of a page without legacy polyfills is free of them, and no chain that removes them
finds one in it. -/
theorem run_free_of_polyfills (c : Chain Builtin) (strips : .legacyPolyfills ∈ c.kinds)
    (url text : String) :
    match Url.parse url with
    | .error cause => (c.run url text).1 = .error (.invalidUrl url cause)
    | .ok _ => ∃ html, (c.run url text).1 = .ok html ∧
      (∀ data ∈ (PageFilters.parse html).tree.preorder, data.isPolyfillScript = false) ∧
      ∀ (again : Chain Builtin) (url' : String) (accepted : Url),
        .legacyPolyfills ∈ again.kinds → Url.parse url' = .ok accepted →
          (again.run url' html).2.record.outcome? .legacyPolyfills = some .notApplied := by
  cases parsed : Url.parse url with
  | error cause =>
    dsimp only
    rw [run, Chain.parse, parsed]
    rfl
  | ok documentUrl =>
    obtain ⟨opened, kinds, ran⟩ := c.run_of_accepted parsed text
    have clean := trees_written_clean (kinds ▸ strips) text
    rw [ran]
    refine ⟨_, rfl, ?_, ?_⟩
    · intro data member
      rw [parse_tree, Tree.preorder] at member
      rcases List.mem_cons.mp member with rfl | member
      · rfl
      · simpa using List.any_eq_false.mp clean data member
    · intro again url' accepted strips' parsed'
      obtain ⟨opened', kinds', ran'⟩ :=
        again.run_of_accepted parsed' (parseWith observer text opened).1.html
      obtain ⟨_, outcome⟩ := parseWith_works opened' (parseWith observer text opened).1.html
      rw [ran', outcome (kinds' ▸ strips'), clean]
      rfl

end

theorem run_twice_without_polyfill :
    let c := Chain.ofOptions Builtin.ofKind (({} : Options).enable .legacyPolyfills)
    .legacyPolyfills ∈ c.kinds ∧ ∃ html,
      (c.run "https://a.example/" "<p><script src=/WP-polyfill.js></script>").1 = .ok html ∧
      (∀ data ∈ (PageFilters.parse html).tree.preorder, data.isPolyfillScript = false) ∧
      (c.run "https://a.example/" html).2.record.outcome? .legacyPolyfills =
        some .notApplied := by
  intro c
  have strips : .legacyPolyfills ∈ c.kinds := List.mem_singleton.mpr rfl
  obtain ⟨documentUrl, accepted⟩ := accepts_example
  have free := run_free_of_polyfills c strips "https://a.example/"
    "<p><script src=/WP-polyfill.js></script>"
  rw [accepted] at free
  obtain ⟨html, written, clean, again⟩ := free
  exact ⟨strips, html, written, clean, again c _ _ strips accepted⟩

end Chain

end PageFilters
