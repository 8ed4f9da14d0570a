import PageFilters.Proofs.Filter.Hooks
import PageFilters.Proofs.Filter.Isolation
import PageFilters.Proofs.Markup.Quotes

/-!
Quotes are for show only. No filter and no policy looks at them, and what a filter adds it adds with
double quotes wherever it adds it. So pages that differ in quotes only meet the same fate.
-/

namespace PageFilters

/-- A policy that does not look at quotes. -/
def Policy.Blind (policy : Policy) : Prop :=
  ∀ d id, policy d.uniform id = policy d id

theorem Policy.usual_blind : Policy.usual.Blind := by
  intro d id
  have marks : ∀ x, Policy.marks d.uniform x = Policy.marks d x := by
    intro x
    rw [Policy.marks, Document.element_uniform, Policy.marks, Option.map_map]
    congr 2
    funext e
    simp [Policy.isMarked]
  rw [usual, Document.isAttached_uniform, Document.ancestors_uniform, usual, funext marks]

def Page.uniform (p : Page) : Page :=
  { p with doc := p.doc.uniform }

@[simp] theorem Page.setOutcome_uniform (p : Page) (kind : FilterKind) (outcome : Outcome) :
    p.uniform.setOutcome kind outcome = (p.setOutcome kind outcome).uniform := by
  unfold setOutcome
  simp only
  split
  · next known => rw [if_pos (show (p.record.outcome? kind == some outcome) = true from known)]; rfl
  · next news => rw [if_neg (show ¬ (p.record.outcome? kind == some outcome) = true from news)]; rfl

namespace ImagePriority

theorem promote_uniform (e : Element) : promote e.uniform = (promote e).uniform := by
  have eager : ∀ e : Element, loadEagerly e.uniform = (loadEagerly e).uniform := by
    intro e
    rw [loadEagerly, Element.value_uniform, loadEagerly]
    split
    · exact e.eraseAttribute_uniform "loading"
    · rfl
  have first : ∀ e : Element, fetchFirst e.uniform = (fetchFirst e).uniform := by
    intro e
    rw [fetchFirst, Element.hasAttribute_uniform, fetchFirst]
    split
    · exact e.setValue_uniform "fetchpriority" "high"
    · exact e.addAttribute_uniform "fetchpriority" "high"
  have mark : ∀ (e : Element) name, addMark e.uniform name = (addMark e name).uniform := by
    intro e name
    rw [addMark, Element.hasAttribute_uniform, addMark]
    split
    · rfl
    · exact e.addAttribute_uniform name "1"
  rw [promote, eager, first, promote]
  exact List.foldl_hom Element.uniform fun e name => (mark e name)

theorem preload_uniform (image : NodeId) (src : String) (p : Page) (f : ImagePriority) :
    preload image src p.uniform f =
      ((preload image src p f).1.uniform, (preload image src p f).2) := by
  have link : (NodeData.element (preloadLink src)).uniform = .element (preloadLink src) := rfl
  have created := p.doc.create_uniform (.element (preloadLink src))
  rw [link] at created
  unfold preload
  split
  · rfl
  · simp only [Page.uniform, created, Document.insertBefore_uniform]
    cases (p.doc.create (.element (preloadLink src))).2.insertBefore? image
      (p.doc.create (.element (preloadLink src))).1 <;> rfl

end ImagePriority

section

variable [UrlLibrary]

def Hook.QuoteBlind (hook : Hook φ) : Prop :=
  ∀ cx p f, cx.policy.Blind → hook cx p.uniform f = ((hook cx p f).1.uniform, (hook cx p f).2)

theorem Element.eligibleSrc_uniform (base : Option Url) (e : Element) :
    e.uniform.eligibleSrc? base = e.eligibleSrc? base := by
  have hidden : e.uniform.isHidden = e.isHidden := by rw [isHidden, value_uniform, isHidden]
  have tiny : e.uniform.isTiny = e.isTiny := by rw [isTiny, value_uniform, value_uniform, isTiny]
  rw [eligibleSrc?, value_uniform, hidden, tiny, eligibleSrc?]

namespace ImagePriority

theorem onStart_quoteBlind (id : NodeId) : Hook.QuoteBlind (onStart id) := by
  intro cx p f blind
  have candidate : f.candidate? id cx p.uniform = f.candidate? id cx p := by
    rw [candidate?, candidate?, Page.uniform, Document.keyword_uniform, blind,
      Document.element_uniform]
    cases p.doc.element? id with
    | none => rfl
    | some e => simp only [Option.map_some, Option.bind_some, e.eligibleSrc_uniform cx.base]
  unfold onStart
  rw [candidate, Page.uniform, Document.keyword_uniform]
  split
  · rfl
  · rfl
  · split
    · rfl
    · next src _ =>
      have promoted : ({ p with doc := p.doc.uniform.modifyElement id promote } : Page) =
          Page.uniform { p with doc := p.doc.modifyElement id promote } := by
        rw [Page.uniform, Document.modifyElement_uniform _ _ promote_uniform]
      simp only [prioritize, promoted, preload_uniform, Page.applied, Page.setOutcome_uniform]

theorem onEnd_quoteBlind (id : NodeId) : Hook.QuoteBlind (onEnd id) := by
  intro cx p f _
  unfold onEnd
  rw [Page.uniform, Document.keyword_uniform]
  split <;> rfl

end ImagePriority

theorem LegacyPolyfills.onEnd_quoteBlind (id : NodeId) : Hook.QuoteBlind (onEnd id) := by
  intro cx p f _
  have address : (p.uniform.doc.element? id).bind polyfillSrc? =
      (p.doc.element? id).bind polyfillSrc? := by
    rw [Page.uniform, Document.element_uniform]
    cases p.doc.element? id with
    | none => rfl
    | some e => simp only [Option.map_some, Option.bind_some, polyfillSrc?,
        Element.keyword_uniform, Element.value_uniform]
  unfold onEnd
  rw [address]
  split
  · rfl
  · next src _ =>
    rw [Page.uniform, Document.delete_uniform]
    cases p.doc.delete? id with
    | none => rfl
    | some d =>
      have applied := Page.setOutcome_uniform
        (({ p with doc := d } : Page).notify (.polyfillRemoved src)) .legacyPolyfills .applied
      exact congrArg (·, f) applied

namespace Builtin

theorem startElement_quoteBlind (id : NodeId) :
    (PageFilter.startElement id : Hook Builtin).QuoteBlind := by
  rintro cx p (f | f) blind
  · have same := ImagePriority.onStart_quoteBlind id cx p f blind
    exact congrArg (fun x : Page × ImagePriority => (x.1, Sum.inl x.2)) same
  · rfl

theorem endElement_quoteBlind (id : NodeId) :
    (PageFilter.endElement id : Hook Builtin).QuoteBlind := by
  rintro cx p (f | f) blind
  · have same := ImagePriority.onEnd_quoteBlind id cx p f blind
    exact congrArg (fun x : Page × ImagePriority => (x.1, Sum.inl x.2)) same
  · have same := LegacyPolyfills.onEnd_quoteBlind id cx p f blind
    exact congrArg (fun x : Page × LegacyPolyfills => (x.1, Sum.inr x.2)) same

theorem endDocument_quoteBlind : (PageFilter.endDocument : Hook Builtin).QuoteBlind := by
  rintro cx p (f | f) _
  · rfl
  · rfl

end Builtin

namespace Chain

section

variable {φ : Type} {hook : Hook φ} {cx : Context}

theorem runAll_uniform (each : hook.QuoteBlind) (blind : cx.policy.Blind) (fs : List φ)
    (p : Page) :
    runAll hook cx fs p.uniform =
      ((runAll hook cx fs p).1.uniform, (runAll hook cx fs p).2) := by
  induction fs generalizing p with
  | nil => rfl
  | cons f rest ih => simp only [runAll, each cx p f blind, ih]

theorem runWhileAttached_uniform (each : hook.QuoteBlind) (blind : cx.policy.Blind)
    (node : NodeId) (fs : List φ) (p : Page) :
    runWhileAttached hook cx node fs p.uniform =
      ((runWhileAttached hook cx node fs p).1.uniform,
        (runWhileAttached hook cx node fs p).2) := by
  induction fs generalizing p with
  | nil => rfl
  | cons f rest ih =>
    have attached : p.uniform.doc.isAttached node = p.doc.isAttached node :=
      p.doc.isAttached_uniform node
    rw [runWhileAttached, attached, runWhileAttached]
    split
    · simp only [each cx p f blind, ih]
    · rfl

theorem follow_uniform (c : Chain φ) (d : Document) (id : NodeId) :
    c.follow d.uniform id = c.follow d id := by
  have href : (d.uniform.element? id).bind (Element.value? "href") =
      (d.element? id).bind (Element.value? "href") := by
    rw [Document.element_uniform]
    cases d.element? id with
    | none => rfl
    | some e => exact e.value_uniform "href"
  rw [follow, Document.keyword_uniform, follow]
  split
  · rfl
  · rw [followBase, href, followBase]
  · rfl

theorem settle_uniform (c : Chain φ) (x : Page × List φ) :
    c.settle (x.1.uniform, x.2) = ((c.settle x).1.uniform, (c.settle x).2) :=
  rfl

end

variable {c c' : Chain Builtin}

theorem onStartElement_uniform (blind : c.policy.Blind) (id : NodeId) (d : Document) :
    onStartElement id d.uniform c =
      ((onStartElement id d c).1.uniform, (onStartElement id d c).2) := by
  have policy : (c.follow d id).context.policy.Blind := by
    rw [show (c.follow d id).context.policy = c.policy from (follow_keeps c d id).policy]
    exact blind
  have ran := runAll_uniform (Builtin.startElement_quoteBlind id) policy (c.follow d id).filters
    ((c.follow d id).page d)
  unfold onStartElement
  simp only [follow_uniform]
  change Chain.settle _ (runAll _ _ _ ((c.follow d id).page d).uniform) = _
  rw [ran, settle_uniform]

theorem onEndElement_uniform (blind : c.policy.Blind) (id : NodeId) (d : Document) :
    onEndElement id d.uniform c = ((onEndElement id d c).1.uniform, (onEndElement id d c).2) := by
  have quoteBlind := Builtin.endElement_quoteBlind id
  have ended : c.ending id d.uniform = ((c.ending id d).1.uniform, (c.ending id d).2) := by
    rw [ending, Document.isAttached_uniform, ending]
    split
    · exact runWhileAttached_uniform quoteBlind blind id c.filters (c.page d)
    · exact runAll_uniform quoteBlind blind c.filters (c.page d)
  rw [onEndElement_eq, ended, settle_uniform, onEndElement_eq]

theorem onEndDocument_uniform (blind : c.policy.Blind) (d : Document) :
    onEndDocument d.uniform c = ((onEndDocument d c).1.uniform, (onEndDocument d c).2) := by
  let cx : Context := { c.context with noscript := none }
  have policy : cx.policy.Blind := blind
  have ran := runAll_uniform Builtin.endDocument_quoteBlind policy c.filters (c.page d)
  unfold onEndDocument
  change Chain.settle _ (runAll _ _ _ (c.page d).uniform) = _
  rw [ran, settle_uniform]

def BlindlyAlike (c c' : Chain Builtin) : Prop :=
  c.Alike c' ∧ c.policy.Blind

theorem Alike.policy (alike : c.Alike c') : c'.policy = c.policy := by
  rw [alike.fields]

theorem sameButQuotes_on {reaction : Reaction (Chain Builtin)}
    (uniform : ∀ (c : Chain Builtin) d, c.policy.Blind →
      reaction d.uniform c = ((reaction d c).1.uniform, (reaction d c).2))
    (deaf : ∀ (c c' : Chain Builtin) d, c.Alike c' →
      Alongside Alike (reaction d c) (reaction d c'))
    (policy : ∀ (c : Chain Builtin) d, (reaction d c).2.policy = c.policy)
    (x y : Document × Chain Builtin) (same : SameButQuotes BlindlyAlike x y) :
    SameButQuotes BlindlyAlike (reaction.on x) (reaction.on y) := by
  obtain ⟨d, c⟩ := x
  obtain ⟨d', c'⟩ := y
  obtain ⟨same, alike, blind⟩ := same
  have blind' : c'.policy.Blind := alike.policy ▸ blind
  have along := deaf c c' d.uniform alike
  rw [uniform c d blind, same, uniform c' d' blind'] at along
  refine ⟨along.1, along.2, ?_⟩
  change (reaction d c).2.policy.Blind
  rw [policy]
  exact blind

theorem observer_quoteBlind :
    Observer.QuoteBlind (observer : Observer (Chain Builtin)) BlindlyAlike := by
  constructor
  case symm => exact fun c c' same => ⟨same.1.symm, same.1.policy ▸ same.2⟩
  case trans => exact fun c c' c'' first second => ⟨first.1.trans second.1, first.2⟩
  case startElement =>
    intro id
    exact sameButQuotes_on (fun c d blind => onStartElement_uniform blind id d)
      (fun c c' d alike => onStartElement_alike alike id d)
      (fun c d => (onStartElement_sameMake c id d).policy.symm)
  case endElement =>
    intro id
    exact sameButQuotes_on (fun c d blind => onEndElement_uniform blind id d)
      (fun c c' d alike => onEndElement_alike alike id d)
      (fun c d => (onEndElement_sameMake c id d).policy.symm)
  case ignored => exact fun what c c' same => ⟨same.1, same.2⟩
  case endDocument =>
    exact sameButQuotes_on (fun c d blind => onEndDocument_uniform blind d)
      (fun c c' d alike => onEndDocument_alike alike d)
      (fun c d => (onEndDocument_sameMake c d).policy.symm)

/-- Texts whose tokens differ in their quotes only meet the same fate under the usual policy: both
are refused or both become pages, and these differ in quotes only. The chain is left the same but
for its notices, and at every call it has found and left the same page, up to quotes. -/
theorem quotes_presentational {c : Chain Builtin} (usual : c.policy = Policy.usual) (url : String)
    {text other : String}
    (same : (spelled text).map Token.uniform = (spelled other).map Token.uniform) :
    let one := c.parse url text
    let two := c.parse url other
    one.1.map Document.uniform = two.1.map Document.uniform ∧
      one.2.record = two.2.record ∧ one.2.base = two.2.base ∧ one.2.filters = two.2.filters ∧
      one.2.silent = two.2.silent ∧
      ∀ documentUrl, Url.parse url = .ok documentUrl →
        (Observer.log observer text (c.opened documentUrl text)).map Occasion.uniform =
          (Observer.log observer other (c.opened documentUrl other)).map Occasion.uniform := by
  intro one two
  cases parsed : Url.parse url with
  | error cause =>
    have first : one = (.error (.invalidUrl url cause), c) := c.parse_refused parsed text
    have second : two = (.error (.invalidUrl url cause), c) := c.parse_refused parsed other
    rw [first, second]
    refine ⟨rfl, rfl, rfl, rfl, rfl, ?_⟩
    rintro documentUrl ⟨⟩
  | ok documentUrl =>
    have blind : (c.opened documentUrl text).policy.Blind := by
      rw [show (c.opened documentUrl text).policy = Policy.usual from usual]
      exact Policy.usual_blind
    have opened : BlindlyAlike (c.opened documentUrl text) (c.opened documentUrl other) :=
      ⟨rfl, blind⟩
    have made : (c.opened documentUrl text).SameMake (c.opened documentUrl other) :=
      ⟨rfl, rfl, rfl⟩
    have start := made.begun rfl rfl .empty
    have begun : SameButQuotes BlindlyAlike
        (observer.startDocument .empty (c.opened documentUrl text))
        (observer.startDocument .empty (c.opened documentUrl other)) := by
      refine ⟨congrArg Document.uniform start.1, start.2, ?_⟩
      change (onStartDocument .empty (c.opened documentUrl text)).2.policy.Blind
      rw [← (onStartDocument_sameMake (c.opened documentUrl text) .empty).policy]
      exact blind
    obtain ⟨pages, alike, _⟩ := parseWith_uniform observer_quoteBlind same begun
    have first : one = (.ok _, _) := c.parse_opened parsed text
    have second : two = (.ok _, _) := c.parse_opened parsed other
    rw [first, second]
    refine ⟨congrArg Except.ok pages, ?_, ?_, alike.filters, alike, ?_⟩
    · rw [alike.fields]
    · rw [alike.fields]
    · rintro _ ⟨⟩
      exact Observer.log_uniform observer_quoteBlind same opened begun

end Chain

end

namespace Chain

theorem quotes_presentational_example :
    let c := Chain.ofOptions Builtin.ofKind
      ((({} : Options).enable .imagePriority).enable .legacyPolyfills)
    let text := "<body><img src='/a.jpg'><script src=/polyfill.min.js></script>"
    let other := "<body><img src=/a.jpg><script src=\x22/polyfill.min.js\x22></script>"
    c.policy = Policy.usual ∧
      (spelled text).map Token.uniform = (spelled other).map Token.uniform ∧
      (c.parse "https://a.example/" text).1.map Document.uniform =
        (c.parse "https://a.example/" other).1.map Document.uniform := by
  intro c text other
  have same : (spelled text).map Token.uniform = (spelled other).map Token.uniform := by
    rw [spelled_eq, spelled_eq]
    cbv
  exact ⟨rfl, same, (quotes_presentational rfl "https://a.example/" same).1⟩

end Chain

end PageFilters
