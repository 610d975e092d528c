import YamlLocator.Proofs.Continuation.Events
import YamlLocator.Proofs.Continuation.Trees
import YamlLocator.Proofs.ErrorPlaces
import YamlLocator.Proofs.Places.Trees

/-!
# The First Document

Only the first document of a text is read. If a line of three points ends it, everything behind
that line may be what it likes, and need not be YAML. The reader sees the line before it sees what
is behind it, and by then all tokens of the document can be handed out. There is one exception:
where a flow collection is left open in front of the line, a token of it may be the beginning of a
key whose colon is still to come, and is held back until the reader has read on. It matters if the
first document is already over by then and nothing but that token is there to tell. Whether it
matters can be found out with a quote that is never closed: the reader does not get past it, so a
text that goes on with one keeps its tree only if the reader need not go there.

Two places of a tree depend on how long the text is. They are the estimated end of a scalar, which
is cut at the end of the text, and anything behind a block scalar with characters of several bytes,
whose mark may lie behind the text.

## Main definitions

* `Text.LeavesFlowOpen`: A flow collection is open behind the last line.

## Theorems

* `Document.events_append`: The events are the same if the text goes on.
* `Document.parse_append`: And so is the tree, up to the estimated ends of scalars.
* `Document.parse_append_ne`: What these two conditions are needed for.
-/

namespace YamlLocator

namespace Yaml

/-- A flow collection is open where the reader has come to the break at the end of the text. -/
def Text.LeavesFlowOpen (text : List Char) : Prop :=
  ∃ tokens t, Tokenizer.Runs (Tokenizer.ofText text) tokens t ∧ t.cursor.rest = ['\n'] ∧
    t.inFlow = true

/-- If all tokens are markers, there is no document in front of the end. -/
theorem Event.ofTokens_of_dropWhile {tokens : List Delivered} {token : Delivered}
    (htokens : tokens.dropWhile (·.item = Token.documentEnd) = [])
    (htoken : token.item = .streamEnd) (error : SyntaxError) :
    Event.ofTokens { tokens := TokenStream.streamStart :: (tokens ++ [token]), error } =
      .ok [Event.start, { item := .streamEnd, mark := token.mark }] := by
  have hstart : (Derivation.ofStream
      { tokens := TokenStream.streamStart :: (tokens ++ [token]), error }).step =
        .ok (some (Event.start, Derivation.ofStart (tokens ++ [token]) error)) := rfl
  have hrest : (tokens ++ [token]).dropWhile (·.item = Token.documentEnd) = [token] := by
    simp [List.dropWhile_append, htokens, htoken]
  have hdocument : (Derivation.ofStart (tokens ++ [token]) error).step = .ok (some
      ({ item := .streamEnd, mark := token.mark },
        { Derivation.ofStart [] error with reached := token.reached, agenda := [] })) := by
    simp [Derivation.step, Derivation.ofStart, Derivation.fulfil, Derivation.document, hrest,
      Derivation.peek, htoken, Derivation.emit, Derivation.skip, bind, Except.bind, Except.map]
  rw [Event.ofTokens, Derivation.events_of_step hstart, Derivation.events_of_step hdocument,
    Derivation.events_of_agenda_nil rfl]
  rfl

/-- Markers at the beginning do not count, so the last one ends a document unless there are no other
    tokens. -/
theorem dropWhile_append_of_marker (front : List Delivered) {last : Delivered}
    (hlast : last.item = .documentEnd) :
    (front ++ [last]).dropWhile (·.item = Token.documentEnd) = [] ∨
      ∃ token ∈ (front ++ [last]).dropWhile (·.item = Token.documentEnd),
        token.item = .documentEnd := by
  cases hfront : front.dropWhile (·.item = Token.documentEnd) with
  | nil => exact .inl (by simp [List.dropWhile_append, hfront, hlast])
  | cons first others =>
    refine .inr ⟨last, ?_, hlast⟩
    simp [List.dropWhile_append, hfront]

namespace Document

/-- The events of the first document are the same if the text goes on behind the line that ends
    it. -/
theorem events_append {text : List Char} (hend : endLine <:+ text)
    (hopen : Text.LeavesFlowOpen text → ∃ told, events (text ++ ['"']) = .ok told)
    {found : List (Placed Event)} (hfound : events text = .ok found)
    (hdocument : ∀ mark, found ≠ [Event.start, { item := .streamEnd, mark }])
    (more : List Char) : events (text ++ more) = .ok found := by
  rcases TokenStream.exists_append hend with hsame | ⟨tokens, t, hruns, hruns', hpast, hreads,
    hblock⟩
  · rw [events, hsame]
    exact hfound
  · rcases Tokenizer.exists_ofText_of_runs hruns with ⟨behind, hstream⟩
    rw [events, hstream] at hfound
    have hcontinues (error : SyntaxError) := Event.continues_ofTokens tokens error behind
    -- The tokens up to the marker tell the document, and so they do whatever follows them.
    have htold : ∃ error, Event.ofTokens { tokens := TokenStream.streamStart :: tokens, error } =
        .ok found := by
      cases hflow : t.inFlow with
      | true =>
        rcases hopen ⟨_, t, hruns, hpast.rest_eq, hflow⟩ with ⟨told, htold⟩
        rcases Tokenizer.exists_error_of_quote hpast hreads with ⟨error, herror⟩
        rw [events, Tokenizer.ofText_of_runs_of_error (hruns' ['"']) herror] at htold
        have hsame := (Derivation.ok_of_continues (hcontinues error) htold).1
        rw [← List.cons_append, hfound, Except.ok.injEq] at hsame
        exact ⟨error, hsame ▸ htold⟩
      | false =>
        rcases hblock hflow with ⟨⟨front, last, rfl, hlast⟩, token, error, htoken, hlone⟩
        rcases dropWhile_append_of_marker front hlast with hnone | hclosed
        · rw [← hstream, hlone, Event.ofTokens_of_dropWhile hnone htoken,
            Except.ok.injEq] at hfound
          exact absurd hfound.symm (hdocument token.mark)
        · rcases Derivation.exists_of_continues (hcontinues behind.error) hclosed hfound with
            ⟨events, htold, hsame⟩
          exact ⟨behind.error, hsame ▸ htold⟩
    rcases htold with ⟨error, htold⟩
    rcases Tokenizer.exists_ofText_of_runs (hruns' more) with ⟨behind', hstream'⟩
    rw [events, hstream']
    exact (Derivation.ok_of_continues (Event.continues_ofTokens tokens error behind') htold).1

/-- If a text that ends with a line of three points has a tree, it keeps that tree however it goes
    on. If it leaves a flow collection open, it does so if it can go on with a quote that is never
    closed. The spans are those of the text, with what lies behind its end cut off; if no block
    scalar with a character of several bytes is read before the end of the document is found, only
    the ends of scalars have to be cut. -/
theorem parse_append (first more : String) (root : Node)
    (hopen : Text.LeavesFlowOpen (first ++ "\n...\n").toList →
      ∃ result, parse (first ++ "\n...\n" ++ "\"") = .ok result)
    (hparse : parse (first ++ "\n...\n") = .ok (some root)) :
    ∃ root', parse (first ++ "\n...\n" ++ more) = .ok (some root') ∧
      root'.mapSpans (Span.cut (Text.byteLength (first ++ "\n...\n").toList)) = root ∧
      (StaysNarrow (first ++ "\n...\n").toList →
        root'.mapScalarSpans (Span.cutStop (Text.byteLength (first ++ "\n...\n").toList)) =
          root) := by
  have hend : endLine <:+ (first ++ "\n...\n").toList := by
    rw [String.toList_append]
    exact List.suffix_append _ _
  generalize first ++ "\n...\n" = text at hopen hparse hend
  have hopen' (h : Text.LeavesFlowOpen text.toList) :
      ∃ told, events (text.toList ++ ['"']) = .ok told := by
    rcases hopen h with ⟨result, hresult⟩
    rcases exists_events_of_parse hresult with ⟨told, htold, -⟩
    exact ⟨told, by simpa using htold⟩
  rcases exists_events_of_parse hparse with ⟨found, hfound, htree⟩
  have hdocument (mark : Mark) : found ≠ [Event.start, { item := .streamEnd, mark }] := by
    rintro rfl
    simp [Assembly.ofEvents, Assembly.add, Assembly.result, Event.start, Assembly.empty] at htree
  have hfound' : events (text ++ more).toList = .ok found := by
    rw [String.toList_append]
    exact events_append hend hopen' hfound hdocument more.toList
  -- The tree of the text that goes on is told by the same events.
  have hcut := Assembly.mapSpans_ofEvents_append text.toList more.toList found
  rw [htree, ← String.toList_append] at hcut
  obtain ⟨root', htree', hspans⟩ : ∃ root',
      Assembly.ofEvents (.ofText (text ++ more).toList) found = .ok (some root') ∧
        root'.mapSpans (Span.cut (Text.byteLength text.toList)) = root := by
    cases htree' : Assembly.ofEvents (.ofText (text ++ more).toList) found with
    | error fault => simp only [htree', Except.map, reduceCtorEq] at hcut
    | ok result =>
      rw [htree'] at hcut
      rcases Option.map_eq_some_iff.mp (Except.ok.inj hcut) with ⟨root', rfl, hspans⟩
      exact ⟨root', rfl, hspans⟩
  refine ⟨root', ?_, hspans, fun hnarrow => ?_⟩
  · rw [parse_of_events hfound', htree']
    rfl
  · have hplaces (event : Placed Event) (hmem : event ∈ found) :
        event.mark.index ≤ text.toList.length :=
      Text.index_le_of_isPlace (of_yields_ok (yields_events hnarrow) hfound event hmem).mark
    have hscalars := Assembly.mapScalarSpans_ofEvents_append text.toList more.toList hplaces
    rw [htree, ← String.toList_append, htree'] at hscalars
    exact Option.some.inj (Except.ok.inj hscalars)

/-- A text that leaves a flow collection open behind its first document, and goes on with another
    sign there. In between there is a block scalar that is not ASCII. -/
theorem parse_append_of_quote :
    (∃ result,
        parse ("é: [b, 'c']\nd: |\n x\n...\n|\n é\n...\n[e" ++ "\n...\n" ++ "\"") =
          .ok result) ∧
      ∃ root,
        parse ("é: [b, 'c']\nd: |\n x\n...\n|\n é\n...\n[e" ++ "\n...\n") = .ok (some root) ∧
        ∃ root', parse ("é: [b, 'c']\nd: |\n x\n...\n|\n é\n...\n[e" ++ "\n...\n" ++ "*é") =
            .ok (some root') ∧
          root'.mapScalarSpans (Span.cutStop 42) = root := by
  obtain ⟨root, hquote, hparse⟩ : ∃ root,
      parse ("é: [b, 'c']\nd: |\n x\n...\n|\n é\n...\n[e" ++ "\n...\n" ++ "\"") =
          .ok (some root) ∧
        parse ("é: [b, 'c']\nd: |\n x\n...\n|\n é\n...\n[e" ++ "\n...\n") = .ok (some root) :=
    ⟨.mapping
      [{ key := .scalar "é" .string (some ⟨0, 2⟩)
         value := some (.sequence
          [.scalar "b" .string (some ⟨5, 6⟩), .scalar "c" .string (some ⟨8, 11⟩)]
          (some ⟨4, 11⟩)) },
       { key := .scalar "d" .string (some ⟨13, 14⟩)
         value := some (.scalar "x\n" .string (some ⟨19, 21⟩)) }]
      (some ⟨2, 21⟩), parse_of_parseWithin 60 (by decide +kernel),
      parse_of_parseWithin 60 (by decide +kernel)⟩
  rcases parse_append _ "*é" _ (fun _ => ⟨_, hquote⟩) hparse with ⟨root', hroot', -, hscalars⟩
  exact ⟨⟨_, hquote⟩, root, hparse, root', hroot',
    hscalars (staysNarrow_of_holdsWithin 60 60 (by decide +kernel))⟩

/-- A block scalar behind empty lines, whose estimated end lies behind the text, and a flow
    collection that is left open behind the first document. -/
theorem parse_append_ne :
    parse ("|\n\n\n\n\n\n\n x" ++ "\n...\n") =
        .ok (some (.scalar "\n\n\n\n\n\nx\n" .string (some ⟨9, 15⟩))) ∧
      parse ("|\n\n\n\n\n\n\n x" ++ "\n...\n" ++ "bcdefg\n") =
        .ok (some (.scalar "\n\n\n\n\n\nx\n" .string (some ⟨9, 17⟩))) ∧
      parse ("'a'\n[b" ++ "\n...\n") = .ok (some (.scalar "a" .string (some ⟨0, 3⟩))) ∧
      parse ("'a'\n[b" ++ "\n...\n" ++ "\"") = .error
        (.malformed "while scanning a quoted scalar, found unexpected end of stream" 4 1) := by
  refine ⟨?_, ?_, ?_, ?_⟩
  all_goals exact parse_of_parseWithin 40 (by decide +kernel)

end Document

end Yaml

end YamlLocator
