import Leta.Verification.Writing

/-! # Timestamps on the wire

A timestamp is written as the one RFC 3339 text of its instant, and texts are ordered as the
instants are. -/

namespace Leta

/-- The UTC date of the instant is in the years 0000 to 9999. -/
def HasWireDate (timestamp : ℤ) : Prop :=
  ∃ date : Date, date.Valid ∧ millisecondsPerDay * date.dayNumber ≤ timestamp ∧
    timestamp < millisecondsPerDay * (date.dayNumber + 1) ∧ 0 ≤ date.year ∧ date.year ≤ 9999

theorem HasWireDate.inWireYears {timestamp : ℤ} (h : HasWireDate timestamp) :
    InWireYears timestamp := by
  obtain ⟨date, hvalid, hfrom, hto, hfirst, hlast⟩ := h
  have hbounds := hvalid.dayNumber_bounds
  have hfirst' := Date.daysBeforeYear_mono hfirst
  have hlast' := Date.daysBeforeYear_mono (show date.year + 1 ≤ 10000 by omega)
  rw [Date.dayNumber_newYear, Date.dayNumber_newYear] at hbounds
  rw [InWireYears, Date.dayNumber_newYear, Date.dayNumber_newYear]
  rw [millisecondsPerDay] at *
  omega

/-- The appended token: 26 bytes, which write this instant and no other. -/
structure WritesInstant (out : Bytes) (timestamp : ℤ) (token : Bytes) : Prop where
  appended : appendJsonTimestamp out timestamp = out ++ token
  length : token.length = 26
  form : ∃ text, token = 0x22 :: (text ++ [0x22]) ∧ DateTime text timestamp ∧
    ∀ instant, DateTime text instant → instant = timestamp

theorem writesInstant (out : Bytes) {timestamp : ℤ} (h : InWireYears timestamp) :
    WritesInstant out timestamp (0x22 :: (dateTimeOf timestamp ++ [0x22])) where
  appended := appendJsonTimestamp_eq out timestamp
  length := by simp [(dateTime_dateTimeOf h).length]
  form := ⟨_, rfl, dateTime_dateTimeOf h, fun _ hinstant => hinstant.unique (dateTime_dateTimeOf h)⟩

theorem lt_of_appendJsonTimestamp_lt {out : Bytes} {timestamp timestamp' : ℤ}
    (h : InWireYears timestamp) (h' : InWireYears timestamp')
    (hlt : appendJsonTimestamp out timestamp < appendJsonTimestamp out timestamp') :
    timestamp < timestamp' := by
  have hread := dateTime_dateTimeOf h
  have hread' := dateTime_dateTimeOf h'
  rw [appendJsonTimestamp_eq, appendJsonTimestamp_eq] at hlt
  rcases append_lt_append rfl hlt with hout | ⟨-, htoken⟩
  · exact absurd hout (List.lt_irrefl out)
  rcases List.cons_lt_cons_iff.mp htoken with hquote | ⟨-, htext⟩
  · exact absurd hquote (UInt8.lt_irrefl _)
  rcases append_lt_append (hread.length.trans hread'.length.symm) htext with hless | ⟨-, hquote⟩
  · exact hread.lt_of_lt hread' hless
  · exact absurd hquote (List.lt_irrefl _)

theorem eq_of_appendJsonTimestamp_eq {out : Bytes} {timestamp timestamp' : ℤ}
    (h : InWireYears timestamp) (h' : InWireYears timestamp')
    (heq : appendJsonTimestamp out timestamp = appendJsonTimestamp out timestamp') :
    timestamp = timestamp' := by
  rw [appendJsonTimestamp_eq, appendJsonTimestamp_eq, List.append_cancel_left_eq,
    List.cons.injEq, List.append_cancel_right_eq] at heq
  exact (dateTime_dateTimeOf h).unique (heq.2 ▸ dateTime_dateTimeOf h')

/-- `append_json_timestamp` on the years that have four digits. -/
theorem writes_timestamps (out : Bytes) {timestamp : Timestamp} (h : HasWireDate timestamp) :
    (∃ token, WritesInstant out timestamp token) ∧
      ∀ timestamp' : Timestamp, HasWireDate timestamp' →
        (appendJsonTimestamp out timestamp = appendJsonTimestamp out timestamp' →
          timestamp = timestamp') ∧
        (appendJsonTimestamp out timestamp < appendJsonTimestamp out timestamp' ↔
          timestamp < timestamp') := by
  refine ⟨⟨_, writesInstant out h.inWireYears⟩, fun timestamp' h' => ⟨?_, ?_⟩⟩
  · exact eq_of_appendJsonTimestamp_eq h.inWireYears h'.inWireYears
  · exact lt_iff_of_imp (lt_of_appendJsonTimestamp_lt h.inWireYears h'.inWireYears)
      (lt_of_appendJsonTimestamp_lt h'.inWireYears h.inWireYears)
      (eq_of_appendJsonTimestamp_eq h'.inWireYears h.inWireYears)

/-- The last millisecond before the epoch. -/
theorem writes_timestamps_before_epoch : ∃ token, WritesInstant [] (-1) token := by
  have hdate : HasWireDate (-1) :=
    ⟨⟨1969, 12, 31⟩, ⟨by decide, by decide⟩, by decide, by decide, by decide, by decide⟩
  exact (writes_timestamps [] hdate).1

end Leta
