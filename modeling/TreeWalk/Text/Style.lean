namespace TreeWalk

inductive Colour where
  | red | magenta
  deriving DecidableEq, Repr

/-- How parts of a text are set off, which is up to whoever prints it. -/
structure Style where
  bold : String → String
  /-- A label in front of a message: bold and in a colour. -/
  label : Colour → String → String

/-- Whatever is put around a text that is set off, the text itself is kept. -/
structure Style.Keeps (style : Style) : Prop where
  bold : ∀ text, text.toList <:+: (style.bold text).toList
  label : ∀ colour text, text.toList <:+: (style.label colour text).toList

end TreeWalk
