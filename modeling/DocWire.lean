import DocWire.Connector.Memory
import DocWire.Document.Validate
import DocWire.Parameters.Validate
import DocWire.Xml.Decode
import DocWire.Xml.Encode
import DocWire.Schema.Listing
import DocWire.Proofs.Xml.Document
import DocWire.Proofs.Xml.Parameters
import DocWire.Proofs.Connector.Documents
import DocWire.Proofs.Connector.Parameters
import DocWire.Proofs.Connector.Sends
import DocWire.Proofs.Parameters.Arise
import DocWire.Proofs.Boundaries.Written
import DocWire.Proofs.Boundaries.Read
import DocWire.Proofs.Boundaries.Seeded
import DocWire.Proofs.Boundaries.PassedOn
import DocWire.Proofs.Markup.Accepted
import DocWire.Proofs.Xml.Unmistaken
import DocWire.Proofs.Xml.Accepted
import DocWire.Proofs.Xml.Unaltered
import DocWire.Proofs.Boundaries.Validated
import DocWire.Proofs.Schema.SegmentKeys
import DocWire.Connector.Port
import DocWire.Proofs.Connector.Port
import DocWire.Proofs.Connector.Calls
import DocWire.Proofs.Boundaries.Parameters
import DocWire.Proofs.Number.Value
import DocWire.Proofs.Number.Plain
import DocWire.Proofs.Field.Limits
import DocWire.Proofs.Field.FixedPoint
import DocWire.Proofs.Field.Float
import DocWire.Proofs.Field.Returned
import DocWire.Proofs.Field.Canonical
import DocWire.Proofs.Xml.Namespaces
import DocWire.Proofs.Name.Resolution
import DocWire.Proofs.Boundaries.Relayed
import DocWire.Proofs.Schema.Reordered
import DocWire.Proofs.Schema.Faults
import DocWire.Proofs.Document.Preorder
import DocWire.Proofs.Document.Locality
import DocWire.Proofs.Xml.Located
import DocWire.Proofs.Markup.Balanced
import DocWire.Proofs.Field.Stored
import DocWire.Proofs.Field.Near
import DocWire.Proofs.Xml.Reordered
import DocWire.Proofs.Schema.Offsets
import DocWire.Proofs.Xml.Prefixes
