import WordFields.Session
import WordFields.Word.Run
import WordFields.Proofs.Word.LastWrite
import WordFields.Proofs.Layout.Restoring
import WordFields.Proofs.Layout.Coverage
import WordFields.Proofs.Layout.RoundTrip
import WordFields.Proofs.Layout.Forms
import WordFields.Proofs.Layout.Agreement
import WordFields.Proofs.Session.Validity
import WordFields.Proofs.Session.Stored
import WordFields.Proofs.Faultless
import WordFields.Proofs.Word.Widening
import WordFields.Proofs.Layout.FieldText
import WordFields.Proofs.Word.Replacing
import WordFields.Proofs.Word.SignExtension
import WordFields.Proofs.Layout.Warnings
import WordFields.Proofs.Word.Overlaps
import WordFields.Proofs.Word.SignedFields
import WordFields.Proofs.Text.Messages
import WordFields.Proofs.Word.Cuts
import WordFields.Proofs.Word.Forms
import WordFields.Proofs.Word.SingleBits
import WordFields.Proofs.Layout.Building
import WordFields.Proofs.Layout.FieldItems
import WordFields.Proofs.Layout.FieldLines
import WordFields.Proofs.BitRange
import WordFields.Proofs.Text.PrintedEntries
import WordFields.Proofs.Layout.UnknownKeys
