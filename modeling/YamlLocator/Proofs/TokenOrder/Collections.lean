import YamlLocator.Proofs.Nesting
import YamlLocator.Proofs.Spans
import YamlLocator.Proofs.TokenOrder.Runs

/-!
# Collections End Behind Their Starts

In a sound row of tokens, whatever comes behind the start of a collection is marked behind it, or
the collection is a mapping in front of whose colon nothing ends it. While the grammar
takes such a row, every collection that is open stands in one of these two relations to the
tokens that are left, and so its end is marked behind its start.

There is one way in which a mapping can end in front of its colon after all: the tokens of a
key may end one flow collection more than they begin, and if the grammar takes the start of the
mapping for that collection, it ends there. But then the next token neither separates nor ends
anything, whereas the grammar has come back to a flow collection that asks for such a token. So
this reading cannot be finished, and what it has given so far does not matter.

## Main definitions

* `Production.hold`: The kind of collection that an expectation belongs to.
* `IsHeld`: What an open collection of a kind has to do with the tokens that are left.
* `Ready`: What is kept up from step to step.
* `IsDoomed`: A reading that cannot be finished.

## Theorems

* `goes_of_node`, `goes_of_fulfil`: A step ends a collection behind its start, or is doomed.
* `isMatched_of_events`: Every end of a collection is marked behind its start.
-/

namespace YamlLocator

namespace Yaml

open Tokenizer (IsTimely)

/-- The kinds of collections that are open while something is expected. -/
inductive Hold where
  | block
  | flow
  /-- A sequence that is not indented against its mapping. -/
  | level
  /-- A pair without braces whose mapping has no start among the tokens. -/
  | pair
deriving DecidableEq

/-- The number of flow collections that it is. -/
def Hold.flows : Hold → Int
  | .flow => 1
  | _ => 0

namespace Production

/-- The collection that an expectation is part of. -/
def hold : Production → Option Hold
  | .stream => none
  | .document => none
  | .content => none
  | .root => none
  | .documentEnd => none
  | .blockKey => some .block
  | .blockValue => some .block
  | .blockColon => some .block
  | .blockEntry => some .block
  | .levelEntry => some .level
  | .flowKey _ => some .flow
  | .flowValue => some .flow
  | .flowColon _ => some .flow
  | .flowNoValue => some .flow
  | .flowEntry _ => some .flow
  | .pairKey => some .pair
  | .pairValue => some .pair
  | .pairEnd => some .pair

/-- Whether an expectation arises only behind a token that lets no key begin, and a node is
    expected. -/
def isFresh : Production → Bool
  | .stream => true
  | .document => true
  | .content => true
  | .root => true
  | .blockColon => true
  | .flowColon _ => true
  | .pairKey => true
  | _ => false

end Production

/-- What is left to read: the tokens, those that the tokenizer has not handed out, and the place
    it has come to. -/
structure Prospect where
  tokens : List Delivered
  beyond : List (Placed Token)
  reached : Mark

/-- All tokens ahead. -/
def Prospect.ahead (s : Prospect) : List (Placed Token) := s.tokens.map (·.toPlaced) ++ s.beyond

/-- An agenda that asks for a token that separates or ends something in a flow collection, at
    once or behind a value that is left out. -/
def Insists (agenda : List Production) : Prop :=
  agenda.head? = some (.flowEntry false) ∨ agenda.head? = some .flowNoValue

/-- What a collection that starts at a mark has to do with what is left, if it is open below so
    many flow collections and `rest` is expected behind it. -/
def IsHeld (s : Prospect) (above : Int) (start : Mark) (rest : List Production) : Hold → Prop
  | .block => IsBehind start s.ahead ∨ IsPending above start s.ahead
  | .flow => IsBehind start s.ahead ∨ (IsPending above start s.ahead ∧ Insists rest)
  | .level => ∀ token ∈ s.ahead, start.index ≤ token.mark.index
  | .pair => start.index ≤ s.reached.index ∧ ∀ token ∈ s.tokens, start.index ≤ token.reached.index

/-- The open collections are those of the agenda, and each is held. -/
def IsOpen (s : Prospect) : Int → List Production → List Mark → Prop
  | _, [], starts => starts = []
  | above, p :: rest, starts =>
    match p.hold with
    | none => IsOpen s above rest starts
    | some hold => ∃ start outer, starts = start :: outer ∧ IsHeld s above start rest hold ∧
        IsOpen s (above + hold.flows) rest outer

theorem isOpen_cons_of_none {s : Prospect} {above : Int} {p : Production}
    {rest : List Production} {starts : List Mark} (hp : p.hold = none) :
    IsOpen s above (p :: rest) starts ↔ IsOpen s above rest starts := by
  rw [IsOpen, hp]

theorem isOpen_cons_of_some {s : Prospect} {above : Int} {p : Production}
    {rest : List Production} {starts : List Mark} (hold : Hold) (hp : p.hold = some hold) :
    IsOpen s above (p :: rest) starts ↔
      ∃ start outer, starts = start :: outer ∧ IsHeld s above start rest hold ∧
        IsOpen s (above + hold.flows) rest outer := by
  rw [IsOpen, hp]

/-- The open collections depend on the agenda through what it is part of. -/
theorem isOpen_of_hold_eq {s : Prospect} {above : Int} {p p' : Production}
    {rest : List Production} {starts : List Mark} (hp : p'.hold = p.hold)
    (h : IsOpen s above (p :: rest) starts) : IsOpen s above (p' :: rest) starts := by
  rw [IsOpen] at h ⊢
  rwa [hp]

/-- What every single collection is held by holds them all. -/
theorem isOpen_imp {s s' : Prospect} (difference : Int)
    (himp : ∀ above start rest hold, IsHeld s above start rest hold →
      IsHeld s' (above + difference) start rest hold)
    {above : Int} {agenda : List Production} {starts : List Mark}
    (h : IsOpen s above agenda starts) : IsOpen s' (above + difference) agenda starts := by
  induction agenda generalizing above starts with
  | nil => exact h
  | cons p rest ih =>
    cases hp : p.hold with
    | none =>
      rw [isOpen_cons_of_none hp] at h ⊢
      exact ih h
    | some hold =>
      rw [isOpen_cons_of_some _ hp] at h ⊢
      rcases h with ⟨start, outer, hstarts, hheld, hopen⟩
      refine ⟨start, outer, hstarts, himp _ _ _ _ hheld, ?_⟩
      have := ih hopen
      rwa [show above + hold.flows + difference = above + difference + hold.flows by omega] at this

/-! ### Taking a token -/

theorem isPending_cons_iff {above : Int} {start : Mark} {token : Placed Token}
    {rest : List (Placed Token)} : IsPending above start (token :: rest) ↔
      (token.item = .value ∧ IsBehind start rest) ∨
        (token.item ≠ .blockEnd ∧ (token.item.isFlowStop = true → 0 ≤ above) ∧
          IsPending (above + token.item.opening) start rest) := by
  constructor
  · rintro ⟨inner, colon, behind, heq, hcolon, hinner, hbehind⟩
    cases inner with
    | nil =>
      simp only [List.nil_append, List.cons.injEq] at heq
      rcases heq with ⟨rfl, rfl⟩
      exact .inl ⟨hcolon, hbehind⟩
    | cons first inner =>
      simp only [List.cons_append, List.cons.injEq] at heq
      rcases heq with ⟨rfl, rfl⟩
      exact .inr ⟨hinner.1, hinner.2.1, inner, colon, behind, rfl, hcolon, hinner.2.2, hbehind⟩
  · rintro (⟨hcolon, hbehind⟩ | ⟨hend, hstop, inner, colon, behind, rfl, hcolon, hinner, hbehind⟩)
    · exact ⟨[], token, rest, rfl, hcolon, trivial, hbehind⟩
    · exact ⟨token :: inner, colon, behind, rfl, hcolon, ⟨hend, hstop, hinner⟩, hbehind⟩

theorem isPending_mono {above above' : Int} {start : Mark} {tokens : List (Placed Token)}
    (h : IsPending above start tokens) (hle : above ≤ above') : IsPending above' start tokens := by
  rcases h with ⟨inner, colon, behind, heq, hcolon, hinner, hbehind⟩
  exact ⟨inner, colon, behind, heq, hcolon, isInner_mono hinner hle, hbehind⟩

/-- What is left behind the next token. -/
def Prospect.behind (s : Prospect) (tokens : List Delivered) : Prospect := { s with tokens }

theorem ahead_of_tokens {s : Prospect} {next : Delivered} {tokens : List Delivered}
    (h : s.tokens = next :: tokens) : s.ahead = next.toPlaced :: (s.behind tokens).ahead := by
  simp [Prospect.ahead, Prospect.behind, h]

/-- A collection is held when a token is taken. -/
theorem isHeld_behind {s : Prospect} {next : Delivered} {tokens : List Delivered}
    (ht : s.tokens = next :: tokens) {above above' : Int} {start : Mark}
    {rest : List Production} {hold : Hold} (h : IsHeld s above start rest hold)
    (hle : above + next.item.opening ≤ above') :
    IsHeld (s.behind tokens) above' start rest hold := by
  have hbehind (h : IsBehind start s.ahead) : IsBehind start (s.behind tokens).ahead := by
    rw [ahead_of_tokens ht] at h
    exact fun token hmem => h token (List.mem_cons_of_mem _ hmem)
  -- A colon that is still to come has come with the token, or is still to come.
  have hpending (h : IsPending above start s.ahead) :
      IsBehind start (s.behind tokens).ahead ∨ IsPending above' start (s.behind tokens).ahead := by
    rw [ahead_of_tokens ht, isPending_cons_iff] at h
    rcases h with ⟨_, h⟩ | ⟨_, _, h⟩
    · exact .inl h
    · exact .inr (isPending_mono h hle)
  cases hold with
  | block =>
    rcases h with h | h
    · exact .inl (hbehind h)
    · exact hpending h
  | flow =>
    rcases h with h | ⟨h, hinsists⟩
    · exact .inl (hbehind h)
    · exact (hpending h).imp id fun h => ⟨h, hinsists⟩
  | level =>
    intro token hmem
    exact h token (by rw [ahead_of_tokens ht]; exact List.mem_cons_of_mem _ hmem)
  | pair => exact ⟨h.1, fun token hmem => h.2 token (by rw [ht]; exact List.mem_cons_of_mem _ hmem)⟩

theorem isOpen_behind {s : Prospect} {next : Delivered} {tokens : List Delivered}
    (ht : s.tokens = next :: tokens) {above : Int} {agenda : List Production}
    {starts : List Mark} (h : IsOpen s above agenda starts) (above' : Int)
    (hle : above + next.item.opening ≤ above') :
    IsOpen (s.behind tokens) above' agenda starts := by
  have := isOpen_imp (above' - above)
    (fun above _ _ _ hheld => isHeld_behind ht hheld (by omega)) h
  rwa [show above + (above' - above) = above' by omega] at this

namespace Derivation

/-- What is left to read for a derivation. -/
def prospect (d : Derivation) (beyond : List (Placed Token)) : Prospect :=
  { tokens := d.tokens, beyond, reached := d.reached }

/-- What is kept up from step to step: the tokens that are left are sound and were handed out in
    time, and every collection that is open is held. Behind the first expectation there is none
    that arises only behind some tokens. -/
structure Ready (beyond : List (Placed Token)) (lets : Bool) (d : Derivation)
    (agenda : List Production) (starts : List Mark) : Prop where
  sound : IsSound lets (d.prospect beyond).ahead
  timely : IsTimely d.tokens
  isOpen : IsOpen (d.prospect beyond) 0 agenda starts
  quiet : ∀ p ∈ agenda.tail, p.isFresh = false

/-- The first expectation may arise where it does. -/
def IsDue (lets : Bool) (agenda : List Production) : Prop :=
  ∀ p, agenda.head? = some p → p ≠ .stream ∧ (p.isFresh = true → lets = false)

/-- A flow collection asks for a token that separates or ends something, but there is none. -/
def IsDoomed (d : Derivation) : Prop :=
  (d.agenda.head? = some (.flowEntry false) ∨ d.agenda.head? = some (.flowKey false) ∨
    d.agenda.head? = some .flowNoValue) ∧
  ∀ token, d.tokens.head? = some token → token.item.isFlowStop = false

/-- Marks in the order of a start and its end. -/
def InOrder (first last : Mark) : Prop := first.index ≤ last.index

/-- Behind a step everything is as it was, or the reading cannot be finished. -/
def Goes (beyond : List (Placed Token)) (starts : List Mark) (r : Placed Event × Derivation) :
    Prop :=
  r.2.IsDoomed ∨
    ((r.1.item.isStop = true → ∀ first ∈ starts.head?, InOrder first r.1.mark) ∧
      ∃ lets, Ready beyond lets r.2 r.2.agenda (startsBehind starts r.1) ∧ IsDue lets r.2.agenda)

variable {beyond : List (Placed Token)} {lets : Bool} {d d' : Derivation}
  {p p' : Production} {rest : List Production} {starts : List Mark} {next : Delivered}
  {tokens : List Delivered} {r : Placed Event × Derivation}

theorem isDue_of_quiet {agenda : List Production} (h : ∀ p ∈ agenda, p.isFresh = false) :
    IsDue lets agenda := by
  intro p hp
  have hfresh := h p (List.mem_of_mem_head? hp)
  refine ⟨?_, by simp [hfresh]⟩
  rintro rfl
  simp [Production.isFresh] at hfresh

/-! ### Looking and taking -/

/-- Looking at the next token only brings the tokenizer further. -/
theorem ready_peek {agenda : List Production} (h : Ready beyond lets d agenda starts)
    (hpeek : d.peek = .ok (next, d')) :
    ∃ tokens, d'.tokens = next :: tokens ∧ Ready beyond lets d' agenda starts := by
  rcases peek_eq_ok hpeek with ⟨tokens, ht, hd'⟩
  simp only at ht hd'
  rw [hd']
  refine ⟨tokens, ht, h.sound, h.timely, ?_, h.quiet⟩
  have hopen := isOpen_imp 0 (fun above start rest hold hheld =>
    (?_ : IsHeld (prospect { d with reached := next.reached } beyond) _ _ _ _)) h.isOpen
  · rwa [Int.add_zero] at hopen
  · rw [Int.add_zero]
    cases hold with
    | pair => exact ⟨hheld.2 next (by simp [prospect, ht]), hheld.2⟩
    | block => exact hheld
    | flow => exact hheld
    | level => exact hheld

theorem ahead_of_peek (hpeek : d.peek = .ok (next, d')) :
    (d'.prospect beyond).ahead = (d.prospect beyond).ahead := by
  rcases peek_eq_ok hpeek with ⟨_, _, hd'⟩
  simp only at hd'
  rw [hd']
  rfl

theorem isTimely_tail (h : IsTimely (next :: tokens)) : IsTimely tokens :=
  ⟨(List.pairwise_cons.mp h.1).2, fun token hmem => h.2 token (List.mem_cons_of_mem _ hmem)⟩

/-- What is left behind a token that is taken is sound. -/
theorem sound_skip {agenda : List Production} (h : Ready beyond lets d agenda starts)
    (ht : d.tokens = next :: tokens) :
    IsSettled lets next.toPlaced (d.skip.prospect beyond).ahead ∧
      IsSound next.item.letsKeyBegin (d.skip.prospect beyond).ahead := by
  have hsound := h.sound
  rw [ahead_of_tokens (s := d.prospect beyond) ht, IsSound] at hsound
  simpa [prospect, Prospect.behind, skip, ht] using hsound

/-- A token is taken that opens no flow collection. -/
theorem ready_skip {agenda : List Production} (h : Ready beyond lets d agenda starts)
    (ht : d.tokens = next :: tokens) (hopening : next.item.opening ≤ 0) :
    Ready beyond next.item.letsKeyBegin d.skip agenda starts where
  sound := (sound_skip h ht).2
  timely := by
    rw [skip, ht]
    exact isTimely_tail (ht ▸ h.timely)
  isOpen := by
    have := isOpen_behind (s := d.prospect beyond) ht h.isOpen 0 (by omega)
    simpa [prospect, Prospect.behind, skip, ht] using this
  quiet := h.quiet

/-- Another expectation takes the place of the first one. -/
theorem ready_replace (h : Ready beyond lets d (p :: rest) starts) (p' : Production)
    (hp : p'.hold = p.hold) : Ready beyond lets d (p' :: rest) starts :=
  ⟨h.sound, h.timely, isOpen_of_hold_eq hp h.isOpen, h.quiet⟩

/-- An expectation that belongs to no collection is struck off. -/
theorem ready_tail (h : Ready beyond lets d (p :: rest) starts) (hp : p.hold = none) :
    Ready beyond lets d rest starts :=
  ⟨h.sound, h.timely, (isOpen_cons_of_none hp).mp h.isOpen,
    fun q hmem => h.quiet q (List.mem_of_mem_tail hmem)⟩

/-! ### Giving an event -/

/-- An event that starts and ends nothing. -/
theorem goes_of_emit {event : Event} {mark : Mark} {agenda : List Production}
    (h : Ready beyond lets d agenda starts) (hdue : IsDue lets agenda)
    (hr : d.emit event mark agenda = .ok r) (hstart : event.isStart = false)
    (hstop : event.isStop = false) : Goes beyond starts r := by
  simp only [emit, Except.ok.injEq] at hr
  rw [← hr]
  refine .inr ⟨by simp [hstop], lets, ?_, hdue⟩
  simp only [startsBehind, hstart, hstop, Bool.false_eq_true, if_false]
  exact ⟨h.sound, h.timely, h.isOpen, h.quiet⟩

/-- Behind the start of a collection nothing is marked in front of it, or it is the start of a
    mapping in front of its key. -/
theorem isBehind_or_isPending_of_isSettled {token : Placed Token} {after : List (Placed Token)}
    (h : IsSettled lets token after) :
    IsBehind token.mark after ∨ (IsPending 0 token.mark after ∧ IsHead lets token) := by
  rcases h with h | ⟨hhead, key, rest, rfl, hkey, hpending⟩
  · exact .inl (isBehind_of_precedes h)
  · refine .inr ⟨isPending_cons_iff.mpr (.inr ⟨?_, ?_, ?_⟩), hhead⟩
    · simp [hkey]
    · simp [hkey, Token.isFlowStop]
    · simpa [hkey, Token.opening] using hpending

/-- A token that starts a collection is taken. A mapping that stands in front of its key is
    expected where a key may begin, so that the flow collection around it insists. -/
theorem goes_of_start (hold : Hold) {event : Event} (h : Ready beyond lets d rest starts)
    (hquiet : ∀ q ∈ rest, q.isFresh = false) (hinsists : lets = true → Insists rest)
    (ht : d.tokens = next :: tokens) (hp : p.hold = some hold)
    (hkind : hold = .block ∨ (hold = .flow ∧ next.item ≠ .blockMappingStart))
    (hfresh : p.isFresh = false) (hopening : next.item.opening ≤ hold.flows)
    (hr : d.skip.emit event next.mark (p :: rest) = .ok r) (hstart : event.isStart = true)
    (hstop : event.isStop = false) : Goes beyond starts r := by
  simp only [emit, Except.ok.injEq] at hr
  rw [← hr]
  rcases sound_skip h ht with ⟨hsettled, hsound⟩
  refine .inr ⟨by simp [hstop], next.item.letsKeyBegin, ?_, ?_⟩
  · simp only [startsBehind, hstart, if_true]
    refine ⟨hsound, ?_, (isOpen_cons_of_some _ hp).mpr ⟨next.mark, starts, rfl, ?_, ?_⟩, hquiet⟩
    · rw [skip, ht]
      exact isTimely_tail (ht ▸ h.timely)
    · rcases isBehind_or_isPending_of_isSettled hsettled with hbehind | ⟨hpending, hhead⟩
      · rcases hkind with rfl | ⟨rfl, _⟩
        · exact .inl hbehind
        · exact .inl hbehind
      · rcases hkind with rfl | ⟨rfl, hflow⟩
        · exact .inr hpending
        · refine .inr ⟨hpending, hinsists ?_⟩
          rcases hhead with hblock | ⟨_, hlets⟩
          · exact absurd hblock hflow
          · exact hlets
    · have := isOpen_behind (s := d.prospect beyond) ht h.isOpen (0 + hold.flows)
        (by omega)
      simpa [prospect, Prospect.behind, skip, ht] using this
  · exact isDue_of_quiet fun q hmem => by
      rcases List.mem_cons.mp hmem with rfl | hmem
      · exact hfresh
      · exact hquiet q hmem

/-- The first expectation belongs to the innermost collection. -/
theorem exists_of_ready {hold : Hold} (h : Ready beyond lets d (p :: rest) starts)
    (hp : p.hold = some hold) : ∃ start outer, starts = start :: outer ∧
      IsHeld (d.prospect beyond) 0 start rest hold ∧
      IsOpen (d.prospect beyond) (0 + hold.flows) rest outer :=
  (isOpen_cons_of_some _ hp).mp h.isOpen

/-- The end of a block collection is taken. -/
theorem goes_of_blockEnd {event : Event} (h : Ready beyond lets d (p :: rest) starts)
    (ht : d.tokens = next :: tokens) (hnext : next.item = .blockEnd) (hp : p.hold = some .block)
    (hr : d.skip.emit event next.mark rest = .ok r) (hstart : event.isStart = false)
    (hstop : event.isStop = true) : Goes beyond starts r := by
  rcases exists_of_ready h hp with ⟨start, outer, rfl, hheld, hopen⟩
  simp only [emit, Except.ok.injEq] at hr
  rw [← hr]
  rcases sound_skip h ht with ⟨_, hsound⟩
  refine .inr ⟨fun _ first hfirst => ?_, next.item.letsKeyBegin, ?_, isDue_of_quiet h.quiet⟩
  · simp only [List.head?_cons, Option.mem_some_iff] at hfirst
    subst hfirst
    rw [IsHeld, ahead_of_tokens (s := d.prospect beyond) ht] at hheld
    rcases hheld with hbehind | hpending
    · exact hbehind _ List.mem_cons_self (by simp [hnext])
    · -- No block collection ends in front of a colon that is still to come.
      rcases isPending_cons_iff.mp hpending with ⟨hcolon, _⟩ | ⟨hend, _⟩
      · simp [hnext] at hcolon
      · exact absurd hnext hend
  · simp only [startsBehind, hstart, hstop, Bool.false_eq_true, if_false, if_true, List.tail_cons]
    refine ⟨hsound, ?_, ?_, fun q hmem => h.quiet q (List.mem_of_mem_tail hmem)⟩
    · rw [skip, ht]
      exact isTimely_tail (ht ▸ h.timely)
    · have := isOpen_behind (s := d.prospect beyond) ht hopen 0
        (by simp [hnext, Token.opening, Hold.flows])
      simpa [prospect, Prospect.behind, skip, ht] using this

/-- A flow collection may end at a mark: it starts in front of it, or its colon is still to come
    and the collection around it insists. -/
def MayEnd (s : Prospect) (starts : List Mark) (rest : List Production) (mark : Mark) : Prop :=
  ∀ start, starts.head? = some start →
    InOrder start mark ∨ (IsPending 0 start s.ahead ∧ Insists rest)

/-- A flow collection may end at the next token unless that is a colon. -/
theorem mayEnd_of_ready (h : Ready beyond lets d (p :: rest) starts) (hp : p.hold = some .flow)
    (ht : d.tokens = next :: tokens) (hvalue : next.item ≠ .value) :
    MayEnd (d.prospect beyond) starts rest next.mark := by
  rcases exists_of_ready h hp with ⟨start, outer, rfl, hheld, _⟩
  intro first hfirst
  simp only [List.head?_cons, Option.some.injEq] at hfirst
  subst hfirst
  rcases hheld with hbehind | hpending
  · rw [ahead_of_tokens (s := d.prospect beyond) ht] at hbehind
    exact .inl (hbehind _ List.mem_cons_self hvalue)
  · exact .inr hpending

/-- It still may when the token is taken. -/
theorem mayEnd_skip {mark : Mark} (h : MayEnd (d.prospect beyond) starts rest mark)
    (ht : d.tokens = next :: tokens) (hvalue : next.item ≠ .value)
    (hopening : next.item.opening = 0) : MayEnd (d.skip.prospect beyond) starts rest mark := by
  intro start hstart
  rcases h start hstart with hle | ⟨hpending, hinsists⟩
  · exact .inl hle
  · rw [ahead_of_tokens (s := d.prospect beyond) ht] at hpending
    rcases isPending_cons_iff.mp hpending with ⟨hcolon, _⟩ | ⟨_, _, hpending⟩
    · exact absurd hcolon hvalue
    · rw [hopening, Int.add_zero] at hpending
      exact .inr ⟨by simpa [prospect, Prospect.behind, skip, ht] using hpending, hinsists⟩

/-- Behind the end of a mapping whose colon is still to come, what comes next separates and ends
    nothing. -/
theorem isFlowStop_of_isPending {start : Mark}
    (h : IsPending 0 start (d.prospect beyond).ahead) (ht : d.tokens = next :: tokens)
    (hnext : next.item.opening = -1) (hvalue : next.item ≠ .value) :
    ∀ token, tokens.head? = some token → token.item.isFlowStop = false := by
  intro token htoken
  rw [ahead_of_tokens (s := d.prospect beyond) ht] at h
  rcases isPending_cons_iff.mp h with ⟨hcolon, _⟩ | ⟨_, _, h⟩
  · exact absurd hcolon hvalue
  · cases tokens with
    | nil => simp at htoken
    | cons second tokens =>
      simp only [List.head?_cons, Option.some.injEq] at htoken
      subst htoken
      -- The balance of the key has fallen below zero.
      rw [ahead_of_tokens (show _ = second :: tokens from rfl)] at h
      rcases isPending_cons_iff.mp h with ⟨hcolon, _⟩ | ⟨_, hflow, _⟩
      · rw [hcolon]
        rfl
      · by_contra hne
        have := hflow (by simpa using hne)
        omega

/-- The end of a flow collection is taken. -/
theorem goes_of_flowEnd {event : Event} {mark : Mark}
    (h : Ready beyond lets d (p :: rest) starts) (ht : d.tokens = next :: tokens)
    (hnext : next.item.opening = -1) (hvalue : next.item ≠ .value) (hp : p.hold = some .flow)
    (hend : MayEnd (d.prospect beyond) starts rest mark)
    (hr : d.skip.emit event mark rest = .ok r) (hstart : event.isStart = false)
    (hstop : event.isStop = true) : Goes beyond starts r := by
  rcases exists_of_ready h hp with ⟨start, outer, rfl, _, hopen⟩
  simp only [emit, Except.ok.injEq] at hr
  rw [← hr]
  rcases hend start rfl with hle | ⟨hpending, hinsists⟩
  · rcases sound_skip h ht with ⟨_, hsound⟩
    refine .inr ⟨fun _ first hfirst => ?_, next.item.letsKeyBegin, ?_, isDue_of_quiet h.quiet⟩
    · simp only [List.head?_cons, Option.mem_some_iff] at hfirst
      exact hfirst ▸ hle
    · simp only [startsBehind, hstart, hstop, Bool.false_eq_true, if_false, if_true,
        List.tail_cons]
      refine ⟨hsound, ?_, ?_, fun q hmem => h.quiet q (List.mem_of_mem_tail hmem)⟩
      · rw [skip, ht]
        exact isTimely_tail (ht ▸ h.timely)
      · have := isOpen_behind (s := d.prospect beyond) ht hopen 0
          (by simp [hnext, Hold.flows])
        simpa [prospect, Prospect.behind, skip, ht] using this
  · left
    refine ⟨?_, fun token htoken => ?_⟩
    · rcases hinsists with hrest | hrest
      · exact .inl hrest
      · exact .inr (.inr hrest)
    · exact isFlowStop_of_isPending hpending ht hnext hvalue token
        (by simpa [skip, ht] using htoken)

/-! ### Nodes -/

theorem quiet_cons (h : Ready beyond lets d (p :: rest) starts) (hp' : p'.isFresh = false) :
    ∀ q ∈ p' :: rest, q.isFresh = false := by
  intro q hmem
  rcases List.mem_cons.mp hmem with rfl | hmem
  · exact hp'
  · exact h.quiet q hmem

theorem isDue_cons (hstream : p ≠ .stream) (hfresh : p.isFresh = true → lets = false) :
    IsDue lets (p :: rest) := by
  intro q hq
  simp only [List.head?_cons, Option.some.injEq] at hq
  exact hq ▸ ⟨hstream, hfresh⟩

theorem goes_of_leftOut {adorned : Bool} {mark : Mark} (h : Ready beyond lets d rest starts)
    (hquiet : ∀ q ∈ rest, q.isFresh = false) (hr : d.leftOut adorned mark rest = .ok r) :
    Goes beyond starts r := by
  unfold leftOut at hr
  split at hr
  · exact goes_of_emit h (isDue_of_quiet hquiet) hr rfl rfl
  · simp at hr

/-- A sequence that is not indented starts at its first entry, which is not taken. -/
theorem goes_of_level {event : Event} (h : Ready beyond lets d rest starts)
    (hquiet : ∀ q ∈ rest, q.isFresh = false) (ht : d.tokens = next :: tokens)
    (hnext : next.item = .blockEntry)
    (hr : d.emit event next.mark (.levelEntry :: rest) = .ok r) (hstart : event.isStart = true)
    (hstop : event.isStop = false) : Goes beyond starts r := by
  simp only [emit, Except.ok.injEq] at hr
  rw [← hr]
  refine .inr ⟨by simp [hstop], lets, ?_, isDue_cons (by simp) (by simp [Production.isFresh])⟩
  simp only [startsBehind, hstart, if_true]
  refine ⟨h.sound, h.timely,
    (isOpen_cons_of_some .level rfl).mpr ⟨next.mark, starts, rfl, fun token hmem => ?_, ?_⟩,
    hquiet⟩
  · have hmem : token ∈ (d.prospect beyond).ahead := hmem
    rw [ahead_of_tokens (s := d.prospect beyond) ht] at hmem
    rcases List.mem_cons.mp hmem with rfl | hmem
    · exact Nat.le_refl _
    · -- An entry is not put in front of a key.
      have hmem : token ∈ (d.skip.prospect beyond).ahead := by
        simpa [prospect, Prospect.behind, skip, ht] using hmem
      rcases (sound_skip h ht).1 with hprecedes | ⟨hblock | ⟨hflow, _⟩, _⟩
      · rcases hprecedes token hmem with ⟨hflow, _⟩ | hle
        · simp [hnext] at hflow
        · exact hle
      · simp [hnext] at hblock
      · simp [hnext] at hflow
  · rw [show Hold.level.flows = 0 from rfl, Int.add_zero]
    exact h.isOpen

theorem goes_of_unadorned {place : Place} {adorned : Bool} (h : Ready beyond lets d rest starts)
    (hquiet : ∀ q ∈ rest, q.isFresh = false) (hinsists : lets = true → Insists rest)
    (hr : d.unadorned place adorned rest = .ok r) : Goes beyond starts r := by
  simp only [unadorned, bind_eq_ok] at hr
  rcases hr with ⟨⟨next, d'⟩, hpeek, hr⟩
  rcases ready_peek h hpeek with ⟨tokens, ht, h⟩
  simp only at hr
  split at hr
  · rename_i hnext
    exact goes_of_emit (ready_skip h ht (by simp [hnext, Token.opening])) (isDue_of_quiet hquiet) hr
      rfl rfl
  · rename_i hnext
    exact goes_of_start .flow h hquiet hinsists ht rfl (.inr ⟨rfl, by simp [hnext]⟩) rfl
      (by simp [hnext, Token.opening, Hold.flows]) hr rfl rfl
  · rename_i hnext
    exact goes_of_start .flow h hquiet hinsists ht rfl (.inr ⟨rfl, by simp [hnext]⟩) rfl
      (by simp [hnext, Token.opening, Hold.flows]) hr rfl rfl
  · rename_i hnext
    split at hr
    · exact goes_of_level h hquiet ht hnext hr rfl rfl
    · exact goes_of_leftOut h hquiet hr
  · rename_i hnext
    split at hr
    · exact goes_of_start .block h hquiet hinsists ht rfl (.inl rfl) rfl
        (by simp [hnext, Token.opening, Hold.flows]) hr rfl rfl
    · exact goes_of_leftOut h hquiet hr
  · rename_i hnext
    split at hr
    · exact goes_of_start .block h hquiet hinsists ht rfl (.inl rfl) rfl
        (by simp [hnext, Token.opening, Hold.flows]) hr rfl rfl
    · exact goes_of_leftOut h hquiet hr
  · exact goes_of_leftOut h hquiet hr

/-- A node behind a property, behind which no key may begin. -/
theorem goes_of_unadorned_of_false {place : Place} {adorned : Bool}
    (h : Ready beyond false d rest starts) (hquiet : ∀ q ∈ rest, q.isFresh = false)
    (hr : d.unadorned place adorned rest = .ok r) : Goes beyond starts r :=
  goes_of_unadorned h hquiet (by simp) hr

/-- A node begins, where a flow collection insists or no key may begin. -/
theorem goes_of_node {place : Place} (h : Ready beyond lets d rest starts)
    (hquiet : ∀ q ∈ rest, q.isFresh = false) (hinsists : lets = true → Insists rest)
    (hr : d.node place rest = .ok r) : Goes beyond starts r := by
  simp only [node, bind_eq_ok] at hr
  rcases hr with ⟨⟨next, d'⟩, hpeek, hr⟩
  rcases ready_peek h hpeek with ⟨tokens, ht, h⟩
  simp only at hr
  split at hr
  · rename_i hnext
    split at hr
    · exact goes_of_emit (ready_skip h ht (by simp [hnext, Token.opening])) (isDue_of_quiet hquiet)
        hr rfl rfl
    · simp at hr
  · -- An anchor, with a tag behind it or not.
    rename_i name hnext
    have hskip := ready_skip h ht (by simp [hnext, Token.opening])
    rw [hnext] at hskip
    have hanchor : Ready beyond false (d'.skip.addAnchor name) rest starts :=
      ⟨hskip.sound, hskip.timely, hskip.isOpen, hskip.quiet⟩
    simp only [anchored, bind_eq_ok] at hr
    rcases hr with ⟨⟨next₂, d₂⟩, hpeek₂, hr⟩
    rcases ready_peek hanchor hpeek₂ with ⟨tokens₂, ht₂, h₂⟩
    simp only at hr
    split at hr
    · rename_i tag hnext₂
      simp only [bind_eq_ok] at hr
      rcases hr with ⟨_, _, hr⟩
      have hskip₂ := ready_skip h₂ ht₂ (by simp [hnext₂, Token.opening])
      rw [hnext₂] at hskip₂
      exact goes_of_unadorned_of_false hskip₂ hquiet hr
    · exact goes_of_unadorned_of_false h₂ hquiet hr
  · -- A tag, with an anchor behind it or not.
    rename_i tag hnext
    have hskip := ready_skip h ht (by simp [hnext, Token.opening])
    rw [hnext] at hskip
    simp only [tagged, bind_eq_ok] at hr
    rcases hr with ⟨_, _, ⟨next₂, d₂⟩, hpeek₂, hr⟩
    rcases ready_peek hskip hpeek₂ with ⟨tokens₂, ht₂, h₂⟩
    simp only at hr
    split at hr
    · rename_i name hnext₂
      have hskip₂ := ready_skip h₂ ht₂ (by simp [hnext₂, Token.opening])
      rw [hnext₂] at hskip₂
      have hanchor : Ready beyond false (d₂.skip.addAnchor name) rest starts :=
        ⟨hskip₂.sound, hskip₂.timely, hskip₂.isOpen, hskip₂.quiet⟩
      exact goes_of_unadorned_of_false hanchor hquiet hr
    · exact goes_of_unadorned_of_false h₂ hquiet hr
  · exact goes_of_unadorned h hquiet hinsists hr

theorem goes_of_nodeUnless {isLeftOut : Token → Bool} {place : Place}
    (h : Ready beyond lets d rest starts) (hquiet : ∀ q ∈ rest, q.isFresh = false)
    (hlets : lets = false) (hr : d.nodeUnless isLeftOut place rest = .ok r) :
    Goes beyond starts r := by
  simp only [nodeUnless, bind_eq_ok] at hr
  rcases hr with ⟨⟨next, d'⟩, hpeek, hr⟩
  rcases ready_peek h hpeek with ⟨tokens, ht, h⟩
  simp only at hr
  split at hr
  · exact goes_of_emit h (isDue_of_quiet hquiet) hr rfl rfl
  · exact goes_of_node h hquiet (by simp [hlets]) hr

/-! ### Documents -/

/-- Tokens are taken that open no flow collection and let no key begin. -/
theorem ready_dropWhile {agenda : List Production} (h : Ready beyond false d agenda starts)
    (test : Token → Bool) (htest : ∀ token, test token = true →
      token.opening ≤ 0 ∧ token.letsKeyBegin = false) (handle : Option String) :
    Ready beyond false { d with tokens := d.tokens.dropWhile (test ·.item), handle } agenda
      starts := by
  generalize htokens : d.tokens = tokens
  induction tokens generalizing d with
  | nil => exact ⟨by simpa [prospect, htokens] using h.sound, by simpa [htokens] using h.timely,
      by simpa [prospect, htokens] using h.isOpen, h.quiet⟩
  | cons next rest ih =>
    rw [List.dropWhile_cons]
    split
    · rename_i hnext
      have hskip := ready_skip h htokens (htest _ hnext).1
      rw [(htest _ hnext).2] at hskip
      exact ih (d := d.skip) hskip (by simp [skip, htokens])
    · exact ⟨by simpa [prospect, htokens] using h.sound, by simpa [htokens] using h.timely,
        by simpa [prospect, htokens] using h.isOpen, h.quiet⟩

theorem goes_of_announced (h : Ready beyond false d (.document :: rest) starts)
    (hr : d.announced rest = .ok r) : Goes beyond starts r := by
  simp only [announced, bind_eq_ok] at hr
  rcases hr with ⟨d₁, hpass, ⟨next, d'⟩, hpeek, hr⟩
  have h₁ : Ready beyond false d₁ (.document :: rest) starts := by
    unfold passDirectives at hpass
    split at hpass
    · simp at hpass
    · simp only [Except.ok.injEq] at hpass
      rw [← hpass]
      refine ready_dropWhile h isDirective (fun token htest => ?_) _
      cases token <;> simp [isDirective, Token.letsKeyBegin, Token.opening] at htest ⊢
  rcases ready_peek h₁ hpeek with ⟨tokens, ht, h'⟩
  simp only at hr
  split at hr
  · rename_i hnext
    have hskip := ready_tail (ready_skip h' ht (by simp [hnext, Token.opening])) rfl
    have hdue : IsDue next.item.letsKeyBegin (.content :: .documentEnd :: rest) :=
      isDue_cons (by simp) (by simp [hnext, Token.letsKeyBegin])
    refine goes_of_emit ⟨hskip.sound, hskip.timely, ?_, ?_⟩ hdue hr rfl rfl
    · exact (isOpen_cons_of_none rfl).mpr ((isOpen_cons_of_none rfl).mpr hskip.isOpen)
    · exact quiet_cons h' rfl
  · simp at hr

theorem goes_of_document (h : Ready beyond false d (.document :: rest) starts)
    (hr : d.document rest = .ok r) : Goes beyond starts r := by
  simp only [document, bind_eq_ok] at hr
  rcases hr with ⟨⟨next, d'⟩, hpeek, hr⟩
  have hdrop : Ready beyond false
      { d with tokens := d.tokens.dropWhile (·.item = Token.documentEnd) } (.document :: rest)
      starts := by
    refine ready_dropWhile h (fun token => token = Token.documentEnd)
      (fun token htest => ?_) d.handle
    simp only [decide_eq_true_eq] at htest
    rw [htest]
    exact ⟨Int.le_refl _, rfl⟩
  rcases ready_peek hdrop hpeek with ⟨tokens, ht, h'⟩
  simp only at hr
  split at hr
  · rename_i hnext
    have hskip := ready_tail (ready_skip h' ht (by simp [hnext, Token.opening])) rfl
    exact goes_of_emit hskip (isDue_of_quiet h'.quiet) hr rfl rfl
  · exact goes_of_announced h' hr
  · exact goes_of_announced h' hr
  · have htail := ready_tail h' rfl
    have hdue : IsDue false (.root :: .documentEnd :: rest) := isDue_cons (by simp) (by simp)
    refine goes_of_emit ⟨htail.sound, htail.timely, ?_, ?_⟩ hdue hr rfl rfl
    · exact (isOpen_cons_of_none rfl).mpr ((isOpen_cons_of_none rfl).mpr htail.isOpen)
    · exact quiet_cons h' rfl

theorem goes_of_documentEnd (h : Ready beyond lets d (.documentEnd :: rest) starts)
    (hr : d.documentEnd rest = .ok r) : Goes beyond starts r := by
  simp only [documentEnd, bind_eq_ok] at hr
  rcases hr with ⟨⟨next, d'⟩, hpeek, hr⟩
  rcases ready_peek h hpeek with ⟨tokens, ht, h⟩
  simp only at hr
  split at hr
  · rename_i hnext
    have hskip := ready_tail (ready_skip h ht (by simp [hnext, Token.opening])) rfl
    exact goes_of_emit hskip (isDue_of_quiet h.quiet) hr rfl rfl
  · simp at hr
  · exact goes_of_emit (ready_tail h rfl) (isDue_of_quiet h.quiet) hr rfl rfl

/-! ### Block collections -/

theorem goes_of_blockKey (h : Ready beyond lets d (.blockKey :: rest) starts)
    (hr : d.blockKey rest = .ok r) : Goes beyond starts r := by
  simp only [blockKey, bind_eq_ok] at hr
  rcases hr with ⟨⟨next, d'⟩, hpeek, hr⟩
  rcases ready_peek h hpeek with ⟨tokens, ht, h⟩
  simp only at hr
  split at hr
  · rename_i hnext
    have hskip := ready_skip h ht (by simp [hnext, Token.opening])
    exact goes_of_nodeUnless (ready_replace hskip .blockValue rfl) (quiet_cons h rfl)
      (by simp [hnext, Token.letsKeyBegin]) hr
  · rename_i hnext
    have hskip := ready_skip h ht (by simp [hnext, Token.opening])
    exact goes_of_emit (ready_replace hskip .blockColon rfl)
      (isDue_cons (by simp) (by simp [hnext, Token.letsKeyBegin])) hr rfl rfl
  · rename_i hnext
    exact goes_of_blockEnd h ht hnext rfl hr rfl rfl
  · simp at hr

theorem goes_of_blockColon (h : Ready beyond false d (.blockColon :: rest) starts)
    (hr : d.blockColon rest = .ok r) : Goes beyond starts r :=
  goes_of_nodeUnless (ready_replace h .blockKey rfl) (quiet_cons h rfl) rfl hr

theorem goes_of_blockValue (h : Ready beyond lets d (.blockValue :: rest) starts)
    (hr : d.blockValue rest = .ok r) : Goes beyond starts r := by
  simp only [blockValue, bind_eq_ok] at hr
  rcases hr with ⟨⟨next, d'⟩, hpeek, hr⟩
  rcases ready_peek h hpeek with ⟨tokens, ht, h⟩
  simp only at hr
  split at hr
  · rename_i hnext
    have hskip := ready_skip h ht (by simp [hnext, Token.opening])
    rw [hnext] at hskip
    exact goes_of_blockColon (ready_replace hskip .blockColon rfl) hr
  · exact goes_of_emit (ready_replace h .blockKey rfl) (isDue_of_quiet (quiet_cons h rfl)) hr rfl
      rfl

theorem goes_of_blockEntry (h : Ready beyond lets d (.blockEntry :: rest) starts)
    (hr : d.blockEntry rest = .ok r) : Goes beyond starts r := by
  simp only [blockEntry, bind_eq_ok] at hr
  rcases hr with ⟨⟨next, d'⟩, hpeek, hr⟩
  rcases ready_peek h hpeek with ⟨tokens, ht, h⟩
  simp only at hr
  split at hr
  · rename_i hnext
    have hskip := ready_skip h ht (by simp [hnext, Token.opening])
    exact goes_of_nodeUnless (ready_replace hskip .blockEntry rfl) (quiet_cons h rfl)
      (by simp [hnext, Token.letsKeyBegin]) hr
  · rename_i hnext
    exact goes_of_blockEnd h ht hnext rfl hr rfl rfl
  · simp at hr

/-- The end of a collection that no token ends. -/
theorem goes_of_implicitEnd (hold : Hold) {event : Event} {mark : Mark}
    (h : Ready beyond lets d (p :: rest) starts) (hp : p.hold = some hold) (hflows : hold.flows = 0)
    (hmark : ∀ start, IsHeld (d.prospect beyond) 0 start rest hold → InOrder start mark)
    (hr : d.emit event mark rest = .ok r) (hstart : event.isStart = false)
    (hstop : event.isStop = true) : Goes beyond starts r := by
  rcases exists_of_ready h hp with ⟨start, outer, rfl, hheld, hopen⟩
  simp only [emit, Except.ok.injEq] at hr
  rw [← hr]
  refine .inr ⟨fun _ first hfirst => ?_, lets, ?_, isDue_of_quiet h.quiet⟩
  · simp only [List.head?_cons, Option.mem_some_iff] at hfirst
    exact hfirst ▸ hmark start hheld
  · simp only [startsBehind, hstart, hstop, Bool.false_eq_true, if_false, if_true, List.tail_cons]
    rw [hflows, Int.add_zero] at hopen
    exact ⟨h.sound, h.timely, hopen, fun q hmem => h.quiet q (List.mem_of_mem_tail hmem)⟩

theorem goes_of_levelEntry (h : Ready beyond lets d (.levelEntry :: rest) starts)
    (hr : d.levelEntry rest = .ok r) : Goes beyond starts r := by
  simp only [levelEntry, bind_eq_ok] at hr
  rcases hr with ⟨⟨next, d'⟩, hpeek, hr⟩
  rcases ready_peek h hpeek with ⟨tokens, ht, h⟩
  simp only at hr
  split at hr
  · rename_i hnext
    have hskip := ready_skip h ht (by simp [hnext, Token.opening])
    exact goes_of_nodeUnless (ready_replace hskip .levelEntry rfl) (quiet_cons h rfl)
      (by simp [hnext, Token.letsKeyBegin]) hr
  · refine goes_of_implicitEnd .level h rfl rfl (fun start hheld => ?_) hr rfl rfl
    exact hheld next.toPlaced (by
      rw [ahead_of_tokens (s := d'.prospect beyond) ht]
      exact List.mem_cons_self)

/-! ### Flow collections -/

theorem goes_of_flowKeyAt {mark : Mark} (h : Ready beyond lets d (.flowKey true :: rest) starts)
    (hend : ∀ next, d.tokens.head? = some next → next.item ≠ .value →
      MayEnd (d.prospect beyond) starts rest mark)
    (hr : d.flowKeyAt mark rest = .ok r) : Goes beyond starts r := by
  simp only [flowKeyAt, bind_eq_ok] at hr
  rcases hr with ⟨⟨next, d'⟩, hpeek, hr⟩
  rcases ready_peek h hpeek with ⟨tokens, ht, h'⟩
  simp only at hr
  split at hr
  · rename_i hnext
    have hskip := ready_skip h' ht (by simp [hnext, Token.opening])
    exact goes_of_nodeUnless (ready_replace hskip .flowValue rfl) (quiet_cons h' rfl)
      (by simp [hnext, Token.letsKeyBegin]) hr
  · rename_i hnext
    have hskip := ready_skip h' ht (by simp [hnext, Token.opening])
    exact goes_of_emit (ready_replace hskip (.flowColon next.mark) rfl)
      (isDue_cons (by simp) (by simp [hnext, Token.letsKeyBegin])) hr rfl rfl
  · rename_i hnext
    have hvalue : next.item ≠ .value := by simp [hnext]
    have hmay : MayEnd (d'.prospect beyond) starts rest mark := by
      intro start hstart
      rw [ahead_of_peek hpeek]
      rcases peek_eq_ok hpeek with ⟨_, htokens, _⟩
      exact hend next (by simp [htokens]) hvalue start hstart
    exact goes_of_flowEnd h' ht (by simp [hnext, Token.opening]) hvalue rfl hmay hr rfl rfl
  · exact goes_of_node (ready_replace h' .flowNoValue rfl) (quiet_cons h' rfl) (fun _ => .inr rfl)
      hr

theorem goes_of_flowKey {first : Bool} (h : Ready beyond lets d (.flowKey first :: rest) starts)
    (hr : d.flowKey first rest = .ok r) : Goes beyond starts r := by
  simp only [flowKey, bind_eq_ok] at hr
  rcases hr with ⟨⟨next, d'⟩, hpeek, hr⟩
  rcases ready_peek h hpeek with ⟨tokens, ht, h⟩
  have hkey := ready_replace h (.flowKey true) rfl
  simp only at hr
  split at hr
  · refine goes_of_flowKeyAt hkey (fun next' hnext' hvalue => ?_) hr
    simp only [ht, List.head?_cons, Option.some.injEq] at hnext'
    subst hnext'
    exact mayEnd_of_ready h rfl ht hvalue
  · split at hr
    · -- The end behind a separator is marked at the separator.
      rename_i hnext
      have hvalue : next.item ≠ .value := by simp [hnext]
      refine goes_of_flowKeyAt (ready_skip hkey ht (by simp [hnext, Token.opening]))
        (fun _ _ _ => ?_) hr
      exact mayEnd_skip (mayEnd_of_ready h rfl ht hvalue) ht hvalue (by simp [hnext, Token.opening])
    · simp at hr

theorem goes_of_flowColon {colon : Mark}
    (h : Ready beyond false d (.flowColon colon :: rest) starts)
    (hr : d.flowColon colon rest = .ok r) : Goes beyond starts r := by
  simp only [flowColon, bind_eq_ok] at hr
  rcases hr with ⟨⟨next, d'⟩, hpeek, hr⟩
  rcases ready_peek h hpeek with ⟨tokens, ht, h⟩
  simp only at hr
  split at hr
  · exact goes_of_emit (ready_replace h (.flowKey false) rfl) (isDue_of_quiet (quiet_cons h rfl)) hr
      rfl rfl
  · exact goes_of_node (ready_replace h (.flowKey false) rfl) (quiet_cons h rfl) (by simp) hr

theorem goes_of_flowValue (h : Ready beyond lets d (.flowValue :: rest) starts)
    (hr : d.flowValue rest = .ok r) : Goes beyond starts r := by
  simp only [flowValue, bind_eq_ok] at hr
  rcases hr with ⟨⟨next, d'⟩, hpeek, hr⟩
  rcases ready_peek h hpeek with ⟨tokens, ht, h⟩
  simp only at hr
  split at hr
  · rename_i hnext
    have hskip := ready_skip h ht (by simp [hnext, Token.opening])
    rw [hnext] at hskip
    exact goes_of_flowColon (ready_replace hskip (.flowColon next.mark) rfl) hr
  · exact goes_of_emit (ready_replace h (.flowKey false) rfl) (isDue_of_quiet (quiet_cons h rfl)) hr
      rfl rfl

theorem goes_of_flowNoValue (h : Ready beyond lets d (.flowNoValue :: rest) starts)
    (hr : d.flowNoValue rest = .ok r) : Goes beyond starts r := by
  simp only [flowNoValue, bind_eq_ok] at hr
  rcases hr with ⟨⟨next, d'⟩, hpeek, hr⟩
  rcases ready_peek h hpeek with ⟨tokens, ht, h⟩
  exact goes_of_emit (ready_replace h (.flowKey false) rfl) (isDue_of_quiet (quiet_cons h rfl)) hr
    rfl rfl

theorem goes_of_flowEntryAt (h : Ready beyond lets d (.flowEntry true :: rest) starts)
    (hr : d.flowEntryAt rest = .ok r) : Goes beyond starts r := by
  simp only [flowEntryAt, bind_eq_ok] at hr
  rcases hr with ⟨⟨next, d'⟩, hpeek, hr⟩
  rcases ready_peek h hpeek with ⟨tokens, ht, h⟩
  simp only at hr
  split at hr
  · rename_i hnext
    have hvalue : next.item ≠ .value := by simp [hnext]
    exact goes_of_flowEnd h ht (by simp [hnext, Token.opening]) hvalue rfl
      (mayEnd_of_ready h rfl ht hvalue) hr rfl rfl
  · -- A pair without braces, which will end at the place that has been come to then.
    rename_i hnext
    have hskip := ready_replace (ready_skip h ht (by simp [hnext, Token.opening]))
      (.flowEntry false) rfl
    have htimely := h.timely
    rw [ht] at htimely
    have hreached : d'.reached = next.reached := by
      rcases peek_eq_ok hpeek with ⟨_, _, hd'⟩
      exact congrArg Derivation.reached hd'
    simp only [emit, Except.ok.injEq] at hr
    rw [← hr]
    refine .inr ⟨by simp [Event.isStop], next.item.letsKeyBegin,
      ⟨hskip.sound, hskip.timely, ?_, ?_⟩,
      isDue_cons (by simp) (by simp [hnext, Token.letsKeyBegin])⟩
    · refine (isOpen_cons_of_some .pair rfl).mpr
        ⟨next.mark, starts, rfl, ⟨?_, fun token hmem => ?_⟩, hskip.isOpen⟩
      · have hle := htimely.2 next List.mem_cons_self
        simpa [prospect, skip, hreached] using hle
      · have hmem : token ∈ tokens := by simpa [prospect, skip, ht] using hmem
        exact (List.pairwise_cons.mp htimely.1).1 token hmem
    · exact quiet_cons h rfl
  · exact goes_of_node (ready_replace h (.flowEntry false) rfl) (quiet_cons h rfl)
      (fun _ => .inl rfl) hr

theorem goes_of_flowEntry {first : Bool} (h : Ready beyond lets d (.flowEntry first :: rest) starts)
    (hr : d.flowEntry first rest = .ok r) : Goes beyond starts r := by
  simp only [flowEntry, bind_eq_ok] at hr
  rcases hr with ⟨⟨next, d'⟩, hpeek, hr⟩
  rcases ready_peek h hpeek with ⟨tokens, ht, h⟩
  have hentry := ready_replace h (.flowEntry true) rfl
  simp only at hr
  split at hr
  · exact goes_of_flowEntryAt hentry hr
  · split at hr
    · rename_i hnext
      exact goes_of_flowEntryAt (ready_skip hentry ht (by simp [hnext, Token.opening])) hr
    · simp at hr

/-! ### Pairs -/

theorem goes_of_pairKey (h : Ready beyond false d (.pairKey :: rest) starts)
    (hr : d.pairKey rest = .ok r) : Goes beyond starts r := by
  simp only [pairKey, bind_eq_ok] at hr
  rcases hr with ⟨⟨next, d'⟩, hpeek, hr⟩
  rcases ready_peek h hpeek with ⟨tokens, ht, h⟩
  simp only at hr
  split at hr
  · -- The token that is taken may even end a flow collection, which stays open then.
    rename_i hnext
    have hopening : next.item.opening ≤ 0 := by
      rcases hnext with hnext | hnext
      · simp [hnext, Token.opening]
      · cases hitem : next.item <;> simp [hitem, endsPairValue, Token.opening] at hnext ⊢
    have hskip := ready_replace (ready_skip h ht hopening) .pairValue rfl
    exact goes_of_emit hskip (isDue_of_quiet (quiet_cons h rfl)) hr rfl rfl
  · exact goes_of_node (ready_replace h .pairValue rfl) (quiet_cons h rfl) (by simp) hr

theorem goes_of_pairValue (h : Ready beyond lets d (.pairValue :: rest) starts)
    (hr : d.pairValue rest = .ok r) : Goes beyond starts r := by
  simp only [pairValue, bind_eq_ok] at hr
  rcases hr with ⟨⟨next, d'⟩, hpeek, hr⟩
  rcases ready_peek h hpeek with ⟨tokens, ht, h⟩
  simp only at hr
  split at hr
  · rename_i hnext
    have hskip := ready_skip h ht (by simp [hnext, Token.opening])
    exact goes_of_nodeUnless (ready_replace hskip .pairEnd rfl) (quiet_cons h rfl)
      (by simp [hnext, Token.letsKeyBegin]) hr
  · exact goes_of_emit (ready_replace h .pairEnd rfl) (isDue_of_quiet (quiet_cons h rfl)) hr rfl rfl

/-! ### Steps and runs -/

/-- Fulfilling an expectation ends a collection behind its start, or is doomed. -/
theorem goes_of_fulfil (h : Ready beyond lets d (p :: rest) starts) (hdue : IsDue lets (p :: rest))
    (hr : d.fulfil rest p = .ok r) : Goes beyond starts r := by
  rcases hdue p rfl with ⟨hstream, hfresh⟩
  cases p with
  | stream => exact absurd rfl hstream
  | document => exact goes_of_document (hfresh rfl ▸ h) hr
  | content => exact goes_of_nodeUnless (ready_tail h rfl) h.quiet (hfresh rfl) hr
  | root => exact goes_of_node (ready_tail h rfl) h.quiet (by simp [hfresh rfl]) hr
  | documentEnd => exact goes_of_documentEnd h hr
  | blockKey => exact goes_of_blockKey h hr
  | blockValue => exact goes_of_blockValue h hr
  | blockColon => exact goes_of_blockColon (hfresh rfl ▸ h) hr
  | blockEntry => exact goes_of_blockEntry h hr
  | levelEntry => exact goes_of_levelEntry h hr
  | flowKey first => exact goes_of_flowKey h hr
  | flowValue => exact goes_of_flowValue h hr
  | flowColon colon => exact goes_of_flowColon (hfresh rfl ▸ h) hr
  | flowNoValue => exact goes_of_flowNoValue h hr
  | flowEntry first => exact goes_of_flowEntry h hr
  | pairKey => exact goes_of_pairKey (hfresh rfl ▸ h) hr
  | pairValue => exact goes_of_pairValue h hr
  | pairEnd =>
    exact goes_of_implicitEnd .pair h rfl rfl (fun _ hheld => hheld.1) hr rfl rfl

theorem fulfil_of_step (hstep : d.step = .ok (some r)) :
    ∃ p rest, d.agenda = p :: rest ∧ d.fulfil rest p = .ok r := by
  unfold step at hstep
  split at hstep
  · simp at hstep
  · rename_i p rest hagenda
    refine ⟨p, rest, hagenda, ?_⟩
    cases hr : d.fulfil rest p with
    | error e => simp [hr, Except.map] at hstep
    | ok r' =>
      simp only [hr, Except.map, Except.ok.injEq, Option.some.injEq] at hstep
      rw [hstep]

/-- A reading that is doomed stays so. -/
theorem isDoomed_of_step (h : d.IsDoomed) (hstep : d.step = .ok (some r)) : r.2.IsDoomed := by
  rcases fulfil_of_step hstep with ⟨p, rest, hagenda, hr⟩
  rcases h with ⟨hhead, hnext⟩
  simp only [hagenda, List.head?_cons, Option.some.injEq] at hhead
  -- What is next can neither separate nor end anything.
  have hstop {next : Delivered} {d' : Derivation} (hpeek : d.peek = .ok (next, d')) :
      next.item.isFlowStop = false := by
    rcases peek_eq_ok hpeek with ⟨_, ht, _⟩
    exact hnext next (by simp [ht])
  rcases hhead with rfl | rfl | rfl
  · simp only [fulfil, flowEntry, bind_eq_ok] at hr
    rcases hr with ⟨⟨next, d'⟩, hpeek, hr⟩
    have hstop := hstop hpeek
    simp only at hr
    split at hr
    · rename_i hitem
      simp only [Bool.false_eq_true, false_or] at hitem
      simp [hitem, Token.isFlowStop] at hstop
    · split at hr
      · rename_i hitem
        simp [hitem, Token.isFlowStop] at hstop
      · simp at hr
  · simp only [fulfil, flowKey, bind_eq_ok] at hr
    rcases hr with ⟨⟨next, d'⟩, hpeek, hr⟩
    have hstop := hstop hpeek
    simp only at hr
    split at hr
    · rename_i hitem
      simp only [Bool.false_eq_true, false_or] at hitem
      simp [hitem, Token.isFlowStop] at hstop
    · split at hr
      · rename_i hitem
        simp [hitem, Token.isFlowStop] at hstop
      · simp at hr
  · -- The value that is left out leaves the same token to the mapping.
    simp only [fulfil, flowNoValue, bind_eq_ok] at hr
    rcases hr with ⟨⟨next, d'⟩, hpeek, hr⟩
    rcases peek_eq_ok hpeek with ⟨_, _, hd'⟩
    simp only [emit, Except.ok.injEq] at hr hd'
    rw [← hr, hd']
    exact ⟨.inr (.inl rfl), hnext⟩

theorem isDoomed_of_gives {events : List (Placed Event)} (h : d.IsDoomed)
    (hgives : Gives d events d') : d'.IsDoomed := by
  induction hgives with
  | none d => exact h
  | more d d₁ d₂ event events hstep _ ih => exact ih (isDoomed_of_step h hstep)

theorem goes_of_step (h : Ready beyond lets d d.agenda starts) (hdue : IsDue lets d.agenda)
    (hstep : d.step = .ok (some r)) : Goes beyond starts r := by
  rcases fulfil_of_step hstep with ⟨p, rest, hagenda, hr⟩
  rw [hagenda] at h hdue
  exact goes_of_fulfil h hdue hr

/-- A run that has come to its end was not doomed, and all its collections end behind their
    starts. -/
theorem isMatched_of_gives {events : List (Placed Event)}
    (h : Ready beyond lets d d.agenda starts) (hdue : IsDue lets d.agenda)
    (hgives : Gives d events d') (hend : d'.agenda = []) : IsMatched InOrder starts events := by
  induction hgives generalizing lets starts with
  | none d => trivial
  | more d d₁ d₂ event events hstep hrest ih =>
    rcases goes_of_step h hdue hstep with hdoomed | ⟨hstop, lets', h', hdue'⟩
    · have := (isDoomed_of_gives hdoomed hrest).1
      simp [hend] at this
    · exact ⟨hstop, ih h' hdue' hend⟩

end Derivation

/-- The first token of a text is the beginning of the stream. -/
theorem TokenStream.exists_tokens_ofText (text : List Char) :
    ∃ first tokens, (ofText text).tokens = first :: tokens ∧ first.item = .streamStart := by
  have hstep : (Tokenizer.ofText text).step =
      .ok (some { item := .streamStart, mark := Mark.start, reached := Mark.start },
        (Tokenizer.ofText text).withoutFirst) := rfl
  rw [ofText, Tokenizer.stream_of_step hstep]
  rcases Tokenizer.exists_runs_of_stream (Tokenizer.ofText text).withoutFirst
    [{ item := .streamStart, mark := Mark.start, reached := Mark.start }] with
    ⟨tokens, _, _, htokens⟩
  exact ⟨_, tokens, by simpa using htokens, rfl⟩

/-- Every collection of a text ends behind its start. -/
theorem isMatched_of_events {text : List Char} {events : List (Placed Event)}
    (h : Document.events text = .ok events) : IsMatched Derivation.InOrder [] events := by
  rcases TokenStream.exists_tokens_ofText text with ⟨first, tokens, htokens, hfirst⟩
  rcases TokenStream.exists_sound_ofText text with ⟨beyond, hsound, htimely⟩
  rcases Derivation.gives_of_events h with ⟨found, last, hgives, hend, hevents⟩
  rw [List.reverse_nil, List.nil_append] at hevents
  subst hevents
  rw [htokens] at hsound htimely
  cases hgives with
  | none => simp [Derivation.ofStream] at hend
  | more _ d _ event rest hstep hrest =>
    -- The stream begins with a token of its own, which opens nothing.
    have hd : d = { Derivation.ofStream (TokenStream.ofText text) with
        tokens, reached := first.reached, agenda := [.document] } ∧ event.item = .streamStart := by
      simp only [Derivation.step, Derivation.ofStream, Derivation.fulfil, Derivation.stream,
        Derivation.peek, htokens, bind, Except.bind, Derivation.emit, Derivation.skip, Except.map,
        Except.ok.injEq, Option.some.injEq, Prod.mk.injEq] at hstep
      exact ⟨by simp [← hstep.2, Derivation.ofStream], by rw [← hstep.1]⟩
    rcases hd with ⟨rfl, hitem⟩
    have hready : Derivation.Ready beyond false { Derivation.ofStream (TokenStream.ofText text) with
        tokens, reached := first.reached, agenda := [.document] } [.document] [] := by
      refine ⟨?_, Derivation.isTimely_tail htimely, rfl, by simp⟩
      have hrest := hsound.2
      rwa [hfirst] at hrest
    refine ⟨by simp [hitem, Event.isStop], ?_⟩
    simp only [startsBehind, hitem, Event.isStart, Event.isStop, Bool.false_eq_true, if_false]
    exact Derivation.isMatched_of_gives hready (Derivation.isDue_cons (by simp) (by simp)) hrest
      hend

end Yaml

end YamlLocator
