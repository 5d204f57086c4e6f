import Leta.Json.Syntax

/-! # The keys and scalars of a text

A token is named by the text from its first byte on, so that two tokens of one text are the
same token only when they stand at the same place. -/

namespace Leta.Json

/-- A key or a scalar, by the text from its first byte on. -/
inductive Token where
  | string (text : Bytes)
  | atom (text : Bytes)
  deriving DecidableEq

/-- The raw body of the string a text starts with, and the text behind its closing quote. A
string without one takes the rest. -/
def splitString (text : Bytes) : Bytes × Bytes :=
  match text with
  | [] => ([], [])
  | b :: rest => if b = 0x22 then (splitBody rest).getD (rest, []) else ([], text)

namespace Token

def text : Token → Bytes
  | .string text | .atom text => text

/-- The token is there: a string starts with its quote, an atom with any byte. -/
def Starts : Token → Prop
  | .string text => text.head? = some 0x22
  | .atom text => text ≠ []

/-- The bytes that are unescaped when the token is read. -/
def body : Token → Bytes
  | .string text => (splitString text).1
  | .atom _ => []

/-- The bytes that reading the token writes. A body that cannot be unescaped counts whole. -/
def written (token : Token) : ℕ := ((unescape token.body).getD token.body).length

/-- Text in which the tokens behind this one stand. -/
def rest : Token → Bytes
  | .string text => (splitString text).2
  | .atom text => text.tail

end Token

mutual

/-- The keys and scalars of a value with `rest` behind it, from first to last. -/
def Value.tokens : Value → Bytes → List Token
  | .string s, rest => [.string (s.render ++ rest)]
  | .emptyArray _, _ | .emptyObject _, _ => []
  | .array _ items, rest => items.tokens (0x5d :: rest)
  | .object _ members, rest => members.tokens (0x7d :: rest)
  | v, rest => [.atom (v.render ++ rest)]

def Items.tokens : Items → Bytes → List Token
  | .last v after, rest => v.tokens (after.1 ++ rest)
  | .cons v after before items, rest =>
      v.tokens (after.1 ++ 0x2c :: (before.1 ++ (items.render ++ rest))) ++ items.tokens rest

def Members.tokens : Members → Bytes → List Token
  | .last key c d v after, rest =>
      .string ((Members.last key c d v after).render ++ rest) :: v.tokens (after.1 ++ rest)
  | .cons key c d v after before members, rest =>
      .string ((Members.cons key c d v after before members).render ++ rest) ::
        (v.tokens (after.1 ++ 0x2c :: (before.1 ++ (members.render ++ rest))) ++
          members.tokens rest)

end

/-! ## One string -/

theorem splitString_render (s : StringLiteral) (rest : Bytes) :
    splitString (s.render ++ rest) = (s.body, rest) := by
  rw [StringLiteral.render_append, splitString, if_pos rfl, splitBody_append s.closed]
  rfl

theorem splitString_eq (text : Bytes) :
    (splitString text).2 <:+ text ∧
      (splitString text).1.length + (splitString text).2.length ≤ text.length ∧
      (text.head? = some 0x22 → (splitString text).2.length < text.length) := by
  cases text with
  | nil => simp [splitString]
  | cons b text =>
      rw [splitString]
      split_ifs with hquote
      · cases hsplit : splitBody text with
        | none => simp
        | some token =>
            obtain ⟨htext, -⟩ := splitBody_eq_some hsplit
            refine ⟨⟨b :: (token.1 ++ [0x22]), by simp [htext]⟩, ?_, fun _ => ?_⟩ <;>
              simp only [htext, Option.getD_some, List.length_cons, List.length_append] <;> omega
      · simpa using hquote

/-! ## Places in a text -/

/-- The tokens stand in the text one behind the other, and `rest` behind the last. -/
def Descends : Bytes → List Token → Bytes → Prop
  | text, [], rest => rest <:+ text
  | text, token :: tokens, rest => token.text <:+ text ∧ Descends token.rest tokens rest

theorem Token.rest_suffix (token : Token) : token.rest <:+ token.text := by
  cases token with
  | string text => exact (splitString_eq text).1
  | atom text => exact List.tail_suffix text

theorem Token.length_rest_lt {token : Token} (h : token.Starts) :
    token.rest.length < token.text.length := by
  cases token with
  | string text => exact (splitString_eq text).2.2 h
  | atom text =>
      have := List.length_pos_iff.mpr h
      simp only [rest, Token.text, List.length_tail]
      omega

theorem Token.length_body_add (token : Token) :
    token.body.length + token.rest.length ≤ token.text.length := by
  cases token with
  | string text => exact (splitString_eq text).2.1
  | atom text => simp [body, rest, Token.text]

theorem Token.written_le (token : Token) : token.written ≤ token.body.length := by
  rw [written]
  cases h : unescape token.body with
  | none => exact le_rfl
  | some text => exact ((unescape_eq_some_iff _ _).mp h).length_le

namespace Descends

variable {text text' rest rest' : Bytes} {tokens tokens' : List Token} {token : Token}

theorem of_suffix (h : Descends text tokens rest) (htext : text <:+ text') :
    Descends text' tokens rest := by
  cases tokens with
  | nil => exact List.IsSuffix.trans h htext
  | cons token tokens => exact ⟨h.1.trans htext, h.2⟩

theorem to_suffix (h : Descends text tokens rest) (hrest : rest' <:+ rest) :
    Descends text tokens rest' := by
  induction tokens generalizing text with
  | nil => exact hrest.trans h
  | cons token tokens ih => exact ⟨h.1, ih h.2⟩

theorem append (h : Descends text tokens rest) (h' : Descends rest tokens' rest') :
    Descends text (tokens ++ tokens') rest' := by
  induction tokens generalizing text with
  | nil => exact h'.of_suffix h
  | cons token tokens ih => exact ⟨h.1, ih h.2⟩

theorem single (token : Token) : Descends token.text [token] token.rest :=
  ⟨List.suffix_rfl, List.suffix_rfl⟩

theorem suffix_of_mem (h : Descends text tokens rest) (hmem : token ∈ tokens) :
    token.text <:+ text := by
  induction tokens generalizing text with
  | nil => simp at hmem
  | cons head tokens ih =>
      rcases List.mem_cons.mp hmem with rfl | hmem
      · exact h.1
      · exact (ih h.2 hmem).trans (head.rest_suffix.trans h.1)

/-- No token is met twice. -/
theorem count_le_one (h : Descends text tokens rest) (hstarts : token.Starts) :
    tokens.count token ≤ 1 := by
  induction tokens generalizing text with
  | nil => simp
  | cons head tokens ih =>
      rw [List.count_cons]
      split_ifs with heq
      · obtain rfl := eq_of_beq heq
        have hnot : head ∉ tokens := by
          intro hmem
          have hle := (h.2.suffix_of_mem hmem).length_le
          exact absurd (Token.length_rest_lt hstarts) (by omega)
        rw [List.count_eq_zero_of_not_mem hnot]
      · exact ih h.2

theorem nodup (h : Descends text tokens rest) (hstarts : ∀ token ∈ tokens, token.Starts) :
    tokens.Nodup := by
  refine List.nodup_iff_count_le_one.mpr fun token => ?_
  by_cases hmem : token ∈ tokens
  · exact h.count_le_one (hstarts token hmem)
  · simp [List.count_eq_zero_of_not_mem hmem]

/-- The bodies fit into the text next to one another. -/
theorem sum_length_le (h : Descends text tokens rest) :
    (tokens.map fun token => token.body.length).sum + rest.length ≤ text.length := by
  induction tokens generalizing text with
  | nil => simpa using List.IsSuffix.length_le h
  | cons token tokens ih =>
      have htail := ih h.2
      have hbody := token.length_body_add
      have hle := h.1.length_le
      simp only [List.map_cons, List.sum_cons]
      omega

end Descends

/-! ## The tokens of a value -/

/-- A scalar's token, with the text behind it. -/
theorem descends_atom {v : Value} {rest : Bytes} :
    Descends (v.render ++ rest) [.atom (v.render ++ rest)] rest := by
  obtain ⟨b, tail, hhead, -⟩ := v.exists_head
  refine (Descends.single _).to_suffix ⟨tail, ?_⟩
  rw [Token.rest, hhead]
  rfl

theorem descends_string (s : StringLiteral) (rest : Bytes) :
    Descends (s.render ++ rest) [.string (s.render ++ rest)] rest := by
  refine (Descends.single _).to_suffix ?_
  rw [Token.rest, splitString_render]

/-- A key, and then tokens behind it. -/
theorem Descends.behind_key (key : StringLiteral) {behind text rest : Bytes} {tokens : List Token}
    (htext : text <:+ behind) (h : Descends text tokens rest) :
    Descends (key.render ++ behind) (.string (key.render ++ behind) :: tokens) rest :=
  (descends_string key behind).append (h.of_suffix htext)

mutual

theorem Value.descends : ∀ (v : Value) (rest : Bytes),
    Descends (v.render ++ rest) (v.tokens rest) rest
  | .null, rest | .bool _, rest | .number _, rest => descends_atom
  | .string s, rest => descends_string s rest
  | .emptyArray inner, rest | .emptyObject inner, rest => List.suffix_append _ rest
  | .array before items, rest => by
      refine ((Items.descends items (0x5d :: rest)).to_suffix (List.suffix_cons _ _)).of_suffix ?_
      exact ⟨0x5b :: before.1, by simp [Value.render]⟩
  | .object before members, rest => by
      refine ((Members.descends members (0x7d :: rest)).to_suffix
        (List.suffix_cons _ _)).of_suffix ?_
      exact ⟨0x7b :: before.1, by simp [Value.render]⟩

theorem Items.descends : ∀ (items : Items) (rest : Bytes),
    Descends (items.render ++ rest) (items.tokens rest) rest
  | .last v after, rest => by
      rw [Items.render, List.append_assoc]
      exact (Value.descends v _).to_suffix (List.suffix_append _ _)
  | .cons v after before items, rest => by
      simp only [Items.render, List.append_assoc, List.cons_append]
      refine ((Value.descends v _).to_suffix ?_).append (Items.descends items rest)
      exact ⟨after.1 ++ 0x2c :: before.1, by simp⟩

theorem Members.descends : ∀ (members : Members) (rest : Bytes),
    Descends (members.render ++ rest) (members.tokens rest) rest
  | .last key c d v after, rest => by
      have hrender : (Members.last key c d v after).render ++ rest =
          key.render ++ (c.1 ++ 0x3a :: (d.1 ++ (v.render ++ (after.1 ++ rest)))) := by
        simp [Members.render]
      rw [Members.tokens, hrender]
      exact .behind_key _ ⟨c.1 ++ 0x3a :: d.1, by simp⟩
        ((Value.descends v _).to_suffix (List.suffix_append _ _))
  | .cons key c d v after before members, rest => by
      have hrender : (Members.cons key c d v after before members).render ++ rest =
          key.render ++ (c.1 ++ 0x3a :: (d.1 ++ (v.render ++
            (after.1 ++ 0x2c :: (before.1 ++ (members.render ++ rest)))))) := by
        simp [Members.render]
      rw [Members.tokens, hrender]
      refine .behind_key _ ⟨c.1 ++ 0x3a :: d.1, by simp⟩
        (((Value.descends v _).to_suffix ?_).append (Members.descends members rest))
      exact ⟨after.1 ++ 0x2c :: before.1, by simp⟩

end

theorem starts_atom (v : Value) (rest : Bytes) : (Token.atom (v.render ++ rest)).Starts := by
  obtain ⟨b, tail, hhead, -⟩ := v.exists_head
  simp [Token.Starts, hhead]

mutual

theorem Value.starts_of_mem : ∀ (v : Value) {rest : Bytes} {token : Token},
    token ∈ v.tokens rest → token.Starts
  | .null, rest, token, h | .bool _, rest, token, h | .number _, rest, token, h => by
      obtain rfl := List.mem_singleton.mp h
      exact starts_atom _ _
  | .string s, rest, token, h => by
      obtain rfl := List.mem_singleton.mp h
      rfl
  | .array _ items, _, _, h => items.starts_of_mem h
  | .object _ members, _, _, h => members.starts_of_mem h

theorem Items.starts_of_mem : ∀ (items : Items) {rest : Bytes} {token : Token},
    token ∈ items.tokens rest → token.Starts
  | .last v _, _, _, h => v.starts_of_mem h
  | .cons v _ _ items, _, _, h =>
      (List.mem_append.mp h).elim v.starts_of_mem items.starts_of_mem

theorem Members.starts_of_mem : ∀ (members : Members) {rest : Bytes} {token : Token},
    token ∈ members.tokens rest → token.Starts
  | .last _ _ _ v _, _, _, h =>
      (List.mem_cons.mp h).elim (fun heq => heq ▸ rfl) v.starts_of_mem
  | .cons _ _ _ v _ _ members, _, _, h =>
      (List.mem_cons.mp h).elim (fun heq => heq ▸ rfl)
        fun h => (List.mem_append.mp h).elim v.starts_of_mem members.starts_of_mem

end

end Leta.Json
