import Stun.Attribute.Basic
import Stun.Attribute.BoundedText
import Stun.Attribute.Endpoint
import Stun.Attribute.ErrorCode
import Stun.Attribute.TypeList
import Stun.Buffer.Basic
import Stun.Buffer.Edit
import Stun.Builder
import Stun.Bytes.BigEndian
import Stun.Bytes.Hex
import Stun.Bytes.Padding
import Stun.Bytes.Window
import Stun.Bytes.Words
import Stun.Crc32
import Stun.Digest.Hash
import Stun.Digest.Hmac
import Stun.Digest.Md5
import Stun.Digest.Sha1
import Stun.Digest.Sha256
import Stun.Error
import Stun.Field
import Stun.Fingerprint
import Stun.Header
import Stun.Ip.Address
import Stun.Ip.Fields
import Stun.Ip.V4
import Stun.Ip.V6
import Stun.Key
import Stun.Kind
import Stun.Message
import Stun.MessageType
import Stun.Number.Basic
import Stun.Number.Layout
import Stun.Number.Shortest
import Stun.Proofs.Records
import Stun.Script
import Stun.Span
import Stun.Text.Utf16
import Stun.Text.Utf8
import Stun.TransactionId
import Stun.Proofs.Grammar
import Stun.Proofs.Content
import Stun.Proofs.Appended
import Stun.Proofs.Rollback
import Stun.Proofs.Runs
import Stun.Proofs.Signing
import Stun.Proofs.Checksum
import Stun.Proofs.Fingerprints
import Stun.Proofs.Coverage
import Stun.Proofs.AddressGrammar
import Stun.Proofs.AddressText
import Stun.Proofs.ValueCodec
import Stun.Proofs.Payloads
import Stun.Proofs.Formats
import Stun.Proofs.Rebuild
import Stun.Proofs.Entries
import Stun.Proofs.ReasonPhrase
import Stun.Proofs.Forwarding
import Stun.Proofs.Masking
import Stun.Proofs.Edits
import Stun.Proofs.Fitting
import Stun.Proofs.Scanning
import Stun.Proofs.QuickCheck
import Stun.Proofs.UnknownTypes
import Stun.Proofs.Surrogates
import Stun.Proofs.Identifiers
